import AddressUtil.Bch

/-! The package's address types: `NewAddress`, `String` with its memo, the TRON and VDS encoders
and validators, and the dispatcher `CheckAddress`. -/

namespace AddressUtil

/-- Modelled from the spec: the library code the chain files call and src/ does not
contain. -/
structure Libs where
  /-- `sha3.NewLegacyKeccak256`. -/
  keccak256 : Digest 32
  /-- `ripemd160`, which `hash160.Hash160` applies after SHA-256. -/
  ripemd160 : Digest 20
  /-- `ecc.ParsePubKey` on secp256k1 followed by `SerializeCompressed`; `btcutil`'s
  `NewAddressPubKey` parses its input the same way. -/
  ecc : Ecc
  /-- `btcutil.DecodeAddress` followed by `IsForNet`, on the main or the test network. -/
  btcValid : List UInt8 → Bool → Bool
  /-- `ltcutil.DecodeAddress` followed by `IsForNet`, on the main or the test network. -/
  ltcValid : List UInt8 → Bool → Bool
  /-- `ethutil.NewMixedcaseAddressFromString` and the case-insensitive comparison of
  `CheckETHAddress`. -/
  ethValid : List UInt8 → Bool

/-- A byte string as the Go string it is, for error texts. -/
def asString (b : List UInt8) : String := ⟨b.map fun c => Char.ofNat c.toNat⟩

/-- The digits of Go's `hex.EncodeToString`. -/
def hexDigits : List UInt8 := ascii "0123456789abcdef"

/-- `hex.EncodeToString`: two lowercase digits per byte, high nibble first. -/
def hexEncodeToString (b : List UInt8) : List UInt8 :=
  b.flatMap fun c => [hexDigits.getD (c.toNat / 16) 0, hexDigits.getD (c.toNat % 16) 0]

/-- `BTC_MAIN_NET`. -/
def btcMainNet : UInt8 := 0x00

/-- `BTC_TEST_NET`. -/
def btcTestNet : UInt8 := 0x6f

/-- `LTC_MAIN_NET`. -/
def ltcMainNet : UInt8 := 0x30

/-- `LTC_TEST_NET`. -/
def ltcTestNet : UInt8 := 0x6f

/-- The values behind the `Address` interface, with the fields their methods read; `addr` is
the stored string, empty until `String` stores it. The TRON and VDS types store theirs at
construction. -/
inductive ChainAddress where
  | btc (net : UInt8) (addr pubKey : List UInt8)
  | eth (addr pubKey : List UInt8)
  | ltc (net : UInt8) (addr pubKey : List UInt8)
  | bch (pfx : List UInt8) (net : UInt8) (addr pubKey : List UInt8)
  | tron (addr : List UInt8)
  | vds (addr : List UInt8)
  deriving DecidableEq, Repr

section
variable (libs : Libs) (sha256 : Digest 32)

/-- The check of `NewBTCAddress`, `NewBCHAddress` and `NewVDSAddress`: an uncompressed
65-byte key. -/
def keyFormatOk (pubKey : List UInt8) : Bool := pubKey.length = 65 ∧ pubKey.headD 0 = 0x04

/-- `NewBTCAddress`. -/
def newBTCAddress (pubKey : List UInt8) (main : Bool) : Except GoError ChainAddress :=
  if !keyFormatOk pubKey then .error .errPublicKeyFormat
  else .ok (.btc (if main then btcMainNet else btcTestNet) [] pubKey)

/-- `NewETHAddress`: no check. -/
def newETHAddress (pubKey : List UInt8) : Except GoError ChainAddress := .ok (.eth [] pubKey)

/-- `NewLTCAddress`: no check. -/
def newLTCAddress (pubKey : List UInt8) (main : Bool) : Except GoError ChainAddress :=
  .ok (.ltc (if main then ltcMainNet else ltcTestNet) [] pubKey)

/-- `NewBCHAddress`. -/
def newBCHAddress (pubKey : List UInt8) (main : Bool) : Except GoError ChainAddress :=
  if !keyFormatOk pubKey then .error .errPublicKeyFormat
  else if main then .ok (.bch bchMainPrefix bchMainNet [] pubKey)
  else .ok (.bch bchTestPrefix bchTestNet [] pubKey)

/-- `tronAddrFromPub`. Its caller has checked 65 bytes, so `pub[1:]` is the tail. -/
def tronAddrFromPub (pub : List UInt8) : List UInt8 :=
  let pubBytes := pub.drop 1
  let hashed := libs.keccak256.sum pubBytes
  let last20 := hashed.drop (hashed.length - 20)
  let addr41 := 0x41 :: last20
  let checksum := (sha256.sum (sha256.sum addr41)).take 4
  Base58.encode (addr41 ++ checksum)

/-- `NewTRONAddress`: only the length is checked. -/
def newTRONAddress (pubKey : List UInt8) : Except GoError ChainAddress :=
  if pubKey.length ≠ 65 then .error .errPublicKeyFormat
  else .ok (.tron (tronAddrFromPub libs sha256 pubKey))

/-- `P2PKHAddrId`, the VDS version prefix. -/
def p2PKHAddrId : List UInt8 := [0x10, 0x1c]

/-- `MainAddrId`, the same prefix in hex. -/
def mainAddrId : List UInt8 := ascii "101c"

/-- `addrChecksum`. -/
def addrChecksum (input : List UInt8) : List UInt8 := (sha256.sum (sha256.sum input)).take 4

/-- `encodeAddr`. The checksum has four bytes, so copying it into a `[4]byte` keeps it
whole. -/
def encodeAddr (addrHash pfx : List UInt8) : Except GoError (List UInt8) :=
  if addrHash.length ≠ 20 then .error (.new "incorrect hash length")
  else
    let body := pfx ++ addrHash.take 20
    .ok (Base58.encode (body ++ addrChecksum sha256 body))

/-- `VdsAddrFromPub`: the compressed key, parsed again by `btcutil.NewAddressPubKey`, whose
`ScriptAddress` is that serialization, goes through `hash160.Hash160`. -/
def vdsAddrFromPub (pub : List UInt8) : Except GoError (List UInt8) :=
  match libs.ecc.parsePubKey pub with
  | .error e => .error e
  | .ok compressed =>
    match libs.ecc.parsePubKey compressed with
    | .error e => .error e
    | .ok _ => encodeAddr sha256 ((libs.ripemd160.sum (sha256.sum compressed)).take 20) p2PKHAddrId

/-- `NewVDSAddress`. -/
def newVDSAddress (pubKey : List UInt8) : Except GoError ChainAddress :=
  if !keyFormatOk pubKey then .error .errPublicKeyFormat
  else match vdsAddrFromPub libs sha256 pubKey with
    | .error e => .error e
    | .ok addr => .ok (.vds addr)

/-- `NewAddress`. -/
def newAddress (chain pubKey : List UInt8) (main : Bool) : Except GoError ChainAddress :=
  if chain = ascii "BTC" then newBTCAddress pubKey main
  else if chain = ascii "ETH" then newETHAddress pubKey
  else if chain = ascii "LTC" then newLTCAddress pubKey main
  else if chain = ascii "BCH" then newBCHAddress pubKey main
  else if chain = ascii "ETC" then newETHAddress pubKey
  else if chain = ascii "OMNI" then newBTCAddress pubKey main
  else if chain = ascii "TRON" then newTRONAddress libs sha256 pubKey
  else if chain = ascii "VDS" then newVDSAddress libs sha256 pubKey
  else .error (.new ("unsupport chain type " ++ asString chain))

/-- `BTCAddress.String` on an empty memo: Base58Check of RIPEMD-160 of SHA-256 of the key. -/
def btcString (net : UInt8) (pubKey : List UInt8) : List UInt8 :=
  Base58.checkEncode sha256 (libs.ripemd160.sum (sha256.sum pubKey)) net

/-- `ETHAddress.String`; `none` is the panic of `pubKey[1:]` on an empty key. Each position
of the hex address is uppercased where the hex digest of the address has a digit of 8 or
more and the address has a letter. -/
def ethString (pubKey : List UInt8) : Option (List UInt8) :=
  if pubKey = [] then none
  else
    let b := libs.keccak256.sum pubKey.tail
    let addrBytes := hexEncodeToString (b.drop 12)
    let check := hexEncodeToString (libs.keccak256.sum addrBytes)
    some (ascii "0x" ++ List.zipWith (fun a c =>
      if c ≥ '8'.toUInt8 && a ≥ 'a'.toUInt8 then a - 0x20 else a) addrBytes check)

/-- `String` of each address type: the string and the value afterwards, which holds the
memo the BTC-based types keep; `none` is a panic. LTC and BCH build a `BTCAddress` of their
network byte and key, whose memo starts empty. `ETHAddress.String` never stores its
result. -/
def ChainAddress.string : ChainAddress → Option (List UInt8 × ChainAddress)
  | .btc net addr pubKey =>
    let s := if addr ≠ [] then addr else btcString libs sha256 net pubKey
    some (s, .btc net s pubKey)
  | .eth addr pubKey =>
    if addr ≠ [] then some (addr, .eth addr pubKey)
    else (ethString libs pubKey).map fun s => (s, .eth addr pubKey)
  | .ltc net addr pubKey =>
    let s := if addr ≠ [] then addr else btcString libs sha256 net pubKey
    some (s, .ltc net s pubKey)
  | .bch pfx net addr pubKey =>
    let s := if addr ≠ [] then addr else btcString libs sha256 net pubKey
    some (s, .bch pfx net s pubKey)
  | .tron addr => some (addr, .tron addr)
  | .vds addr => some (addr, .vds addr)

/-- `CheckTRONAddress`. -/
def checkTRONAddress (base58Addr : List UInt8) : Bool :=
  let rawAddr := Base58.decode base58Addr
  if rawAddr.length ≠ 25 ∨ rawAddr.length = 0 then false
  else if rawAddr.headD 0 ≠ 0x41 then false
  else rawAddr.drop 21 = (sha256.sum (sha256.sum (rawAddr.take 21))).take 4

/-- `CheckVDSAddress`. -/
def checkVDSAddress (address : List UInt8) : Bool :=
  let addr := Base58.decode address
  if addr.length ≠ 26 then false
  else
    let body := addr.take (addr.length - 4)
    if hexEncodeToString (body.take (body.length - 20)) ≠ mainAddrId then false
    else hexEncodeToString (addr.drop (addr.length - 4)) =
      hexEncodeToString (addrChecksum sha256 body)

/-- eosutil's `AccountChars`. -/
def accountChars : List UInt8 := ascii ".12345abcdefghijklmnopqrstuvwxyz"

/-- eosutil's `CheckEOSAccount`. It tests runes, but `AccountChars` is ASCII, so a byte
outside it fails exactly when the rune holding it does. -/
def checkEOSAccount (s : List UInt8) : Bool := s.length ≤ 12 && s.all (· ∈ accountChars)

/-- The `IOST` case of `CheckAddress`: `^([a-z0-9_]{5,11})$`, whose class is ASCII. -/
def iostAccount (address : List UInt8) : Bool :=
  5 ≤ address.length && address.length ≤ 11 &&
    address.all fun c => isLower c || isDigit c || c = '_'.toUInt8

/-- `CheckAddress`; `none` is a panic of `CheckBCHAddress`, which never happens
(`checkBCHAddress_isSome`). An unknown chain is accepted. -/
def checkAddress (address chain : List UInt8) (main : Bool) : Option Bool :=
  if chain = ascii "BTC" ∨ chain = ascii "OMNI" then some (libs.btcValid address main)
  else if chain = ascii "BCH" then checkBCHAddress libs.ecc sha256 address main
  else if chain = ascii "LTC" then some (libs.ltcValid address main)
  else if chain = ascii "ETH" ∨ chain = ascii "ETC" then some (libs.ethValid address)
  else if chain = ascii "EOS" then some (checkEOSAccount address)
  else if chain = ascii "IOST" then some (iostAccount address)
  else if chain = ascii "TRON" then some (checkTRONAddress sha256 address)
  else if chain = ascii "VDS" then some (checkVDSAddress sha256 address)
  else some true

@[simp] theorem length_hexEncodeToString (b : List UInt8) :
    (hexEncodeToString b).length = 2 * b.length := by
  induction b with
  | nil => rfl
  | cons c b ih =>
    simp only [hexEncodeToString, List.flatMap_cons, List.length_append] at ih ⊢
    rw [ih]
    simp only [List.length_cons, List.length_nil]
    omega

theorem fromHexChar_hexDigits : ∀ n < 16, Bchutil.fromHexChar (hexDigits.getD n 0) = some n := by
  decide

theorem hexEncodeToString_cons (c : UInt8) (b : List UInt8) : hexEncodeToString (c :: b) =
    hexDigits.getD (c.toNat / 16) 0 :: hexDigits.getD (c.toNat % 16) 0 :: hexEncodeToString b :=
  rfl

/-- Go's hex decoder reads back what its encoder writes. -/
theorem hexDecodeString_hexEncodeToString (b : List UInt8) :
    Bchutil.hexDecodeString (hexEncodeToString b) = .ok b := by
  induction b with
  | nil => rfl
  | cons c b ih =>
    have hc := toNat_lt_256 c
    rw [hexEncodeToString_cons, Bchutil.hexDecodeString, fromHexChar_hexDigits (c.toNat / 16) (by omega),
      fromHexChar_hexDigits (c.toNat % 16) (Nat.mod_lt _ (by norm_num)), ih]
    show Except.ok ((c.toNat / 16 * 16 + c.toNat % 16).toUInt8 :: b) = _
    rw [Nat.div_add_mod', toUInt8_toNat]

theorem hexEncodeToString_inj {a b : List UInt8} (h : hexEncodeToString a = hexEncodeToString b) :
    a = b := by
  have := hexDecodeString_hexEncodeToString a
  rwa [h, hexDecodeString_hexEncodeToString, Except.ok.injEq, eq_comm] at this

/-- The TRON layout: `0x41`, 20 bytes and the first four bytes of their double SHA-256. -/
theorem checkTRONAddress_encode {last20 : List UInt8} (h20 : last20.length = 20) :
    checkTRONAddress sha256
      (Base58.encode ((0x41 :: last20) ++ (sha256.sum (sha256.sum (0x41 :: last20))).take 4)) =
        true := by
  have h21 : (0x41 :: last20 : List UInt8).length = 21 := by simp [h20]
  simp [checkTRONAddress, Base58.decode_encode, h20, List.drop_left' h21, List.take_left' h21]

theorem checkTRONAddress_tronAddrFromPub (pub : List UInt8) :
    checkTRONAddress sha256 (tronAddrFromPub libs sha256 pub) = true :=
  checkTRONAddress_encode sha256 (by simp)

/-- The VDS layout: `P2PKHAddrId`, a 20-byte hash and the first four bytes of the double
SHA-256 of both. -/
theorem checkVDSAddress_encodeAddr {addrHash addr : List UInt8}
    (h : encodeAddr sha256 addrHash p2PKHAddrId = .ok addr) : checkVDSAddress sha256 addr = true := by
  simp only [encodeAddr] at h
  split_ifs at h with h20
  cases h
  have hbody : (p2PKHAddrId ++ addrHash.take 20).length = 22 := by
    simp [p2PKHAddrId, not_not.mp h20]
  have hck (b : List UInt8) : (addrChecksum sha256 b).length = 4 := by simp [addrChecksum]
  have hpre : hexEncodeToString p2PKHAddrId = mainAddrId := by decide
  simp only [checkVDSAddress, Base58.decode_encode, List.length_append, hbody, hck,
    show 22 + 4 - 4 = 22 from rfl, List.take_left' hbody, List.drop_left' hbody,
    show 22 - 20 = p2PKHAddrId.length from rfl, List.take_left, hpre]
  simp

theorem checkVDSAddress_vdsAddrFromPub {pub addr : List UInt8}
    (h : vdsAddrFromPub libs sha256 pub = .ok addr) : checkVDSAddress sha256 addr = true := by
  simp only [vdsAddrFromPub] at h
  split at h
  · cases h
  · split at h
    · cases h
    · exact checkVDSAddress_encodeAddr sha256 h

/-- `CheckTRONAddress` accepts exactly the TRON layout: the Base58 string of `0x41`, some 20
bytes and the first four bytes of their double SHA-256. -/
theorem checkTRONAddress_iff (s : List UInt8) : checkTRONAddress sha256 s = true ↔
    ∃ last20 : List UInt8, last20.length = 20 ∧
      s = Base58.encode ((0x41 :: last20) ++ (sha256.sum (sha256.sum (0x41 :: last20))).take 4) := by
  refine ⟨fun h => ?_, fun ⟨last20, h20, hs⟩ => hs ▸ checkTRONAddress_encode sha256 h20⟩
  simp only [checkTRONAddress] at h
  split_ifs at h with hlen hhead
  rw [not_or, not_not] at hlen
  have hne : Base58.decode s ≠ [] := List.ne_nil_of_length_pos (by omega)
  obtain ⟨x, rest, hxr⟩ := List.exists_cons_of_ne_nil hne
  rw [← Base58.encode_decode_of_ne_nil hne, hxr]
  rw [hxr] at hlen hhead h
  rw [List.headD_cons, not_not] at hhead
  subst hhead
  refine ⟨rest.take 20, by simp at hlen ⊢; omega, ?_⟩
  simp only [List.drop_succ_cons, List.take_succ_cons, decide_eq_true_eq] at h
  rw [List.cons_append, ← h, List.take_append_drop]

/-- `CheckVDSAddress` accepts exactly the strings `encodeAddr` writes under `P2PKHAddrId`. -/
theorem checkVDSAddress_iff (s : List UInt8) : checkVDSAddress sha256 s = true ↔
    ∃ addrHash : List UInt8, encodeAddr sha256 addrHash p2PKHAddrId = .ok s := by
  refine ⟨fun h => ?_, fun ⟨_, h⟩ => checkVDSAddress_encodeAddr sha256 h⟩
  simp only [checkVDSAddress] at h
  split_ifs at h with hlen hpre
  rw [not_not] at hlen hpre
  rw [hlen] at hpre h
  have hne : Base58.decode s ≠ [] := List.ne_nil_of_length_pos (by omega)
  set body := (Base58.decode s).take 22
  have hbl : body.length = 22 := by simp [body, hlen]
  rw [hbl, show 22 - 20 = 2 from rfl] at hpre
  have hpfx : body.take 2 = p2PKHAddrId := hexEncodeToString_inj (by rw [hpre]; decide)
  have hck : (Base58.decode s).drop 22 = addrChecksum sha256 body :=
    hexEncodeToString_inj (of_decide_eq_true h)
  have h20 : (body.drop 2).length = 20 := by simp [hbl]
  have hbody : p2PKHAddrId ++ (body.drop 2).take 20 = body := by
    rw [List.take_of_length_le h20.le, ← hpfx, List.take_append_drop]
  refine ⟨body.drop 2, ?_⟩
  rw [encodeAddr, if_neg (not_not.mpr h20)]
  dsimp only
  rw [hbody, ← hck, List.take_append_drop, Base58.encode_decode_of_ne_nil hne]

theorem newAddress_tron (k : List UInt8) (main : Bool) :
    newAddress libs sha256 (ascii "TRON") k main = newTRONAddress libs sha256 k := rfl

theorem newAddress_vds (k : List UInt8) (main : Bool) :
    newAddress libs sha256 (ascii "VDS") k main = newVDSAddress libs sha256 k := rfl

/-- Every TRON and VDS address the package derives passes its validator: for a 65-byte key
`NewAddress("TRON", ...)` succeeds, and whenever `NewAddress` succeeds on either chain,
`CheckAddress` accepts the string of the address it returns. -/
theorem checkAddress_tron_vds (main : Bool) :
    (∀ k : List UInt8, k.length = 65 → ∃ a s a',
      newAddress libs sha256 (ascii "TRON") k main = .ok a ∧ a.string libs sha256 = some (s, a') ∧
      checkAddress libs sha256 s (ascii "TRON") main = some true) ∧
    (∀ k a, newAddress libs sha256 (ascii "VDS") k main = .ok a → ∃ s a',
      a.string libs sha256 = some (s, a') ∧ checkAddress libs sha256 s (ascii "VDS") main = some true) := by
  refine ⟨fun k hk => ⟨.tron (tronAddrFromPub libs sha256 k), tronAddrFromPub libs sha256 k,
    .tron (tronAddrFromPub libs sha256 k),
    by rw [newAddress_tron, newTRONAddress, if_neg (not_not.mpr hk)], rfl,
    congrArg some (checkTRONAddress_tronAddrFromPub libs sha256 k)⟩, fun k a ha => ?_⟩
  rw [newAddress_vds, newVDSAddress] at ha
  split_ifs at ha
  split at ha
  · cases ha
  · next addr hv =>
    cases ha
    exact ⟨_, _, rfl, congrArg some (checkVDSAddress_vdsAddrFromPub libs sha256 hv)⟩

theorem checkAddress_tron_vds_zero_key :
    let zeros (n : Nat) : Digest n := ⟨fun _ => List.replicate n 0, fun _ => List.length_replicate _ _⟩
    let libs : Libs := ⟨zeros 32, zeros 20, ⟨fun _ => .ok [0x02]⟩, fun _ _ => true, fun _ _ => true,
      fun _ => true⟩
    (∃ a s a', newAddress libs (zeros 32) (ascii "TRON") (List.replicate 65 4) true = .ok a ∧
      a.string libs (zeros 32) = some (s, a') ∧
      checkAddress libs (zeros 32) s (ascii "TRON") true = some true) ∧
    ∃ a s a', newAddress libs (zeros 32) (ascii "VDS") (4 :: List.replicate 64 0) true = .ok a ∧
      a.string libs (zeros 32) = some (s, a') ∧
      checkAddress libs (zeros 32) s (ascii "VDS") true = some true := by
  intro zeros libs
  obtain ⟨a, ha⟩ : ∃ a, newAddress libs (zeros 32) (ascii "VDS") (4 :: List.replicate 64 0) true =
      .ok a := by
    simp [newAddress_vds, newVDSAddress, keyFormatOk, vdsAddrFromPub, encodeAddr, libs, zeros]
  obtain ⟨s, a', hs, hc⟩ := (checkAddress_tron_vds libs (zeros 32) true).2 _ _ ha
  exact ⟨(checkAddress_tron_vds libs (zeros 32) true).1 _ (by simp), a, s, a', ha, hs, hc⟩

/-- The BTC, OMNI, BCH and VDS constructors refuse a key that is not 65 bytes led by
`0x04`. -/
theorem newAddress_of_bad_key {chain k : List UInt8}
    (hc : chain ∈ [ascii "BTC", ascii "OMNI", ascii "BCH", ascii "VDS"])
    (hk : keyFormatOk k = false) (main : Bool) :
    newAddress libs sha256 chain k main = .error .errPublicKeyFormat := by
  simp only [List.mem_cons, List.mem_singleton, List.not_mem_nil, or_false] at hc
  rcases hc with rfl | rfl | rfl | rfl
  · exact (show newBTCAddress k main = _ by simp [newBTCAddress, hk])
  · exact (show newBTCAddress k main = _ by simp [newBTCAddress, hk])
  · exact (show newBCHAddress k main = _ by simp [newBCHAddress, hk])
  · exact (show newVDSAddress libs sha256 k = _ by simp [newVDSAddress, hk])

/-- `NewAddress` does not check the key for every chain: the ETH, ETC and LTC constructors
accept every byte sequence and the TRON one every 65-byte sequence, whatever its first byte.
On the empty key the ETH and ETC addresses' `String` panics. -/
theorem newAddress_skips_key_check (k : List UInt8) (main : Bool) :
    (∀ c ∈ [ascii "ETH", ascii "ETC"], ∃ a, newAddress libs sha256 c k main = .ok a ∧
      (k = [] → a.string libs sha256 = none)) ∧
    (∃ a, newAddress libs sha256 (ascii "LTC") k main = .ok a) ∧
    (k.length = 65 → ∃ a, newAddress libs sha256 (ascii "TRON") k main = .ok a) := by
  refine ⟨fun c hc => ?_, ⟨_, rfl⟩,
    fun hk => ⟨_, by rw [newAddress_tron, newTRONAddress, if_neg (not_not.mpr hk)]⟩⟩
  simp only [List.mem_cons, List.mem_singleton, List.not_mem_nil, or_false] at hc
  rcases hc with rfl | rfl <;> exact ⟨_, rfl, fun hk => by subst hk; rfl⟩

theorem newAddress_eth_empty_key :
    let libs : Libs := ⟨⟨fun _ => List.replicate 32 0, fun _ => List.length_replicate _ _⟩,
      ⟨fun _ => List.replicate 20 0, fun _ => List.length_replicate _ _⟩, ⟨fun _ => .ok []⟩,
      fun _ _ => true, fun _ _ => true, fun _ => true⟩
    (∃ a, newAddress libs Sha256.sha256 (ascii "ETH") [] true = .ok a ∧
      a.string libs Sha256.sha256 = none) ∧
    ∃ a, newAddress libs Sha256.sha256 (ascii "TRON") (List.replicate 65 0) true = .ok a :=
  have h := newAddress_skips_key_check _ Sha256.sha256 [] true
  ⟨(h.1 _ (List.mem_cons_self _ _)).elim fun a ha => ⟨a, ha.1, ha.2 rfl⟩,
    (newAddress_skips_key_check _ Sha256.sha256 (List.replicate 65 0) true).2.2 (by simp)⟩

theorem btcString_ne_nil (net : UInt8) (pubKey : List UInt8) : btcString libs sha256 net pubKey ≠ [] := by
  have := (checkEncode_shape sha256 (libs.ripemd160.length_sum (sha256.sum pubKey)) net).1
  intro h
  rw [btcString] at h
  rw [h] at this
  cases this

theorem memo_ne_nil (net : UInt8) (addr pubKey : List UInt8) :
    (if addr ≠ [] then addr else btcString libs sha256 net pubKey) ≠ [] := by
  split_ifs with h
  · exact h
  · exact btcString_ne_nil libs sha256 net pubKey

/-- `String` stores what it returns. A BTC, LTC or BCH value afterwards holds the returned
string as its memo, and that string is never empty, so a second call takes the memo branch;
on every type a second call returns the same string and leaves the value as it is. -/
theorem string_memo {a a' : ChainAddress} {s : List UInt8}
    (h : a.string libs sha256 = some (s, a')) :
    a'.string libs sha256 = some (s, a') ∧
      (∀ net addr pubKey, a = .btc net addr pubKey → s ≠ [] ∧ a' = .btc net s pubKey) ∧
      (∀ net addr pubKey, a = .ltc net addr pubKey → s ≠ [] ∧ a' = .ltc net s pubKey) ∧
      (∀ pfx net addr pubKey, a = .bch pfx net addr pubKey →
        s ≠ [] ∧ a' = .bch pfx net s pubKey) := by
  cases a with
  | btc net addr pubKey | ltc net addr pubKey | bch _ net addr pubKey =>
    cases h
    have hs := memo_ne_nil libs sha256 net addr pubKey
    refine ⟨by simp only [ChainAddress.string, if_pos hs], ?_, ?_, ?_⟩ <;>
      intros <;> simp_all
  | eth addr pubKey =>
    have ha' : a' = .eth addr pubKey := by
      simp only [ChainAddress.string] at h
      split_ifs at h
      · cases h; rfl
      · obtain ⟨_, -, h'⟩ := Option.map_eq_some'.mp h
        cases h'
        rfl
    subst ha'
    exact ⟨h, by simp, by simp, by simp⟩
  | tron addr | vds addr => cases h; exact ⟨rfl, by simp, by simp, by simp⟩

theorem string_memo_btc_key :
    let libs : Libs := ⟨⟨fun _ => List.replicate 32 0, fun _ => List.length_replicate _ _⟩,
      ⟨fun _ => List.replicate 20 0, fun _ => List.length_replicate _ _⟩, ⟨fun _ => .ok []⟩,
      fun _ _ => true, fun _ _ => true, fun _ => true⟩
    ∃ s a', (ChainAddress.btc btcMainNet [] [4]).string libs Sha256.sha256 = some (s, a') ∧
      a'.string libs Sha256.sha256 = some (s, a') ∧
      (∀ net addr pubKey, ChainAddress.btc btcMainNet [] [4] = .btc net addr pubKey →
        s ≠ [] ∧ a' = .btc net s pubKey) ∧
      (∀ net addr pubKey, ChainAddress.btc btcMainNet [] [4] = .ltc net addr pubKey →
        s ≠ [] ∧ a' = .ltc net s pubKey) ∧
      (∀ pfx net addr pubKey, ChainAddress.btc btcMainNet [] [4] = .bch pfx net addr pubKey →
        s ≠ [] ∧ a' = .bch pfx net s pubKey) :=
  ⟨_, _, rfl, string_memo _ Sha256.sha256 (a := .btc btcMainNet [] [4]) rfl⟩

theorem colon_not_mem_checkEncode (h : List UInt8) (net : UInt8) :
    ':'.toUInt8 ∉ Base58.checkEncode sha256 h net := fun hc =>
  absurd (Base58.encode_mem_alphabet _ _ hc) (by decide)

/-- `NewBCHAddress(k, main).String()` is `BTCAddress.String` of the network byte: the legacy
Base58Check string of the key's hash. It holds no `:`, so it is never the CashAddr string
under the prefix `NewBCHAddress` stores. -/
theorem bchString_legacy {k : List UInt8} (hk : k.length = 65 ∧ k.headD 0 = 0x04) (main : Bool) :
    let pfx := if main then bchMainPrefix else bchTestPrefix
    let h := libs.ripemd160.sum (sha256.sum k)
    ∃ a s a', newBCHAddress k main = .ok a ∧ a.string libs sha256 = some (s, a') ∧
      s = Base58.checkEncode sha256 h (if main then bchMainNet else bchTestNet) ∧
      (checkEncodeCashAddress h pfx addrTypePayToPubKeyHash).map (pfx ++ ascii ":" ++ ·) ≠
        some s := by
  intro pfx h
  have hfmt : keyFormatOk k = true := decide_eq_true hk
  have hnew : newBCHAddress k main = .ok (.bch pfx (if main then bchMainNet else bchTestNet) [] k) := by
    cases main <;> simp [newBCHAddress, hfmt, pfx]
  refine ⟨_, _, _, hnew, by simp only [ChainAddress.string]; rfl, rfl, fun heq => ?_⟩
  obtain ⟨enc, -, henc⟩ := Option.map_eq_some'.mp heq
  refine colon_not_mem_checkEncode sha256 h (if main then bchMainNet else bchTestNet) ?_
  rw [← henc, append_ascii_colon]
  simp

theorem bchString_legacy_test_key :
    let k : List UInt8 := [0x04, 0x78, 0x14, 0x04, 0x9c, 0xd3, 0x23, 0xb2, 0xf7, 0x07, 0x4c, 0x94,
      0xed, 0xc0, 0xf9, 0x61, 0xdb, 0x62, 0xbe, 0x35, 0x68, 0x7c, 0x24, 0x24, 0xb2, 0xad, 0x29, 0xf7,
      0xf2, 0x83, 0x7e, 0x03, 0x95, 0xe8, 0xeb, 0xbe, 0xe0, 0x4f, 0x81, 0x98, 0xa9, 0x1c, 0xd9, 0xc8,
      0xac, 0xbd, 0x97, 0xaa, 0xd7, 0x68, 0x51, 0x95, 0x7f, 0x3e, 0x63, 0x62, 0xf4, 0xdd, 0x41, 0x92,
      0xf3, 0x43, 0x1a, 0x71, 0xfb]
    let h : List UInt8 := [0x6a, 0x05, 0xad, 0x65, 0xc8, 0xcb, 0x14, 0x3c, 0x0e, 0x02, 0xf3, 0xb1,
      0x11, 0xc5, 0xd3, 0x7c, 0x1a, 0x4b, 0x0a, 0xa0]
    let libs : Libs := ⟨⟨fun _ => List.replicate 32 0, fun _ => List.length_replicate _ _⟩,
      ⟨fun _ => h, fun _ => rfl⟩, ⟨fun _ => .ok []⟩, fun _ _ => true, fun _ _ => true, fun _ => true⟩
    (k.length = 65 ∧ k.headD 0 = 0x04) ∧ ∃ a s a', newBCHAddress k true = .ok a ∧
      a.string libs Sha256.sha256 = some (s, a') ∧
      s = ascii "1AfbRoXNPUymQ5VoVGoWjoayLnUSqyQm3n" ∧
      (checkEncodeCashAddress h bchMainPrefix addrTypePayToPubKeyHash).map
        (bchMainPrefix ++ ascii ":" ++ ·) =
          some (ascii "bitcoincash:qp4qttt9er93g0qwqtemzyw96d7p5jc25q4thz52r4") ∧
      (checkEncodeCashAddress h bchMainPrefix addrTypePayToPubKeyHash).map
        (bchMainPrefix ++ ascii ":" ++ ·) ≠ some s := by
  intro k h libs
  obtain ⟨a, s, a', hnew, hs, heq, hne⟩ := bchString_legacy libs Sha256.sha256 (k := k) ⟨rfl, rfl⟩ true
  refine ⟨⟨rfl, rfl⟩, a, s, a', hnew, hs, ?_, by set_option maxRecDepth 20000 in decide, hne⟩
  rw [heq]
  set_option maxRecDepth 20000 in decide

end

end AddressUtil
