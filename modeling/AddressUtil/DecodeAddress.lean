import AddressUtil.Base58
import AddressUtil.CashDecode
import AddressUtil.Chaincfg

/-! bchutil's address values, `IsForNet`, Go's hex decoder and `DecodeAddress`: what each success
read, that it never panics, and that every result is canonical. -/

namespace AddressUtil.Bchutil

open Chaincfg

/-- `Prefixes` as `init` leaves it. -/
def prefixes : List (Net × List UInt8) :=
  [(.mainNet, ascii "bitcoincash"), (.testNet3, ascii "bchtest"), (.regressionNet, ascii "bchreg"),
    (.simNet, ascii "bchsim")]

/-- A `[ripemd160.Size]byte` array. -/
structure Hash20 where
  bytes : List UInt8
  length_bytes : bytes.length = 20
  deriving DecidableEq

/-- `PubKeyFormat`. -/
inductive PubKeyFormat where
  | uncompressed
  | compressed
  | hybrid
  deriving DecidableEq, Repr

/-- The values behind the `Address` interface, with the fields `IsForNet` reads and the
key format `NewAddressPubKey` computes. -/
inductive Address where
  /-- `*AddressPubKeyHash`. -/
  | pubKeyHash (hash : Hash20) (pfx : List UInt8)
  /-- `*AddressPubKey`. -/
  | pubKey (pubKeyFormat : PubKeyFormat) (pubKeyHashID : UInt8)
  /-- `*LegacyAddressPubKeyHash`. -/
  | legacyPubKeyHash (hash : Hash20) (netID : UInt8)
  /-- `*LegacyAddressScriptHash`. -/
  | legacyScriptHash (hash : Hash20) (netID : UInt8)
  deriving DecidableEq

/-- `IsForNet` of each address type. -/
def Address.isForNet : Address → Net → Bool
  | .pubKeyHash _ pfx, net =>
    match prefixes.lookup net with
    | none => false
    | some checkPre => pfx == checkPre
  | .pubKey _ pubKeyHashID, net => pubKeyHashID == net.params.legacyPubKeyHashAddrID
  | .legacyPubKeyHash _ netID, net => netID == net.params.legacyPubKeyHashAddrID
  | .legacyScriptHash _ netID, net => netID == net.params.legacyScriptHashAddrID

/-- `newAddressPubKeyHash`. -/
def newAddressPubKeyHash (pkHash : List UInt8) (net : Net) : Except GoError Address :=
  if h : pkHash.length = 20 then
    match prefixes.lookup net with
    | none => .error (.new "unknown network parameters")
    | some pfx => .ok (.pubKeyHash ⟨pkHash, h⟩ pfx)
  else .error (.new "pkHash must be 20 bytes")

/-- The legacy constructors: check for a 20-byte hash, then wrap it. -/
def newHash20Address (msg : String) (mk : Hash20 → Address) (hash : List UInt8) :
    Except GoError Address :=
  if h : hash.length = 20 then .ok (mk ⟨hash, h⟩) else .error (.new msg)

/-- `newLegacyAddressPubKeyHash`. -/
def newLegacyAddressPubKeyHash (pkHash : List UInt8) (netID : UInt8) : Except GoError Address :=
  newHash20Address "pkHash must be 20 bytes" (.legacyPubKeyHash · netID) pkHash

/-- `newLegacyAddressScriptHashFromHash`. -/
def newLegacyAddressScriptHashFromHash (scriptHash : List UInt8) (netID : UInt8) :
    Except GoError Address :=
  newHash20Address "scriptHash must be 20 bytes" (.legacyScriptHash · netID) scriptHash

/-- `NewAddressPubKey`; `none` is the panic of `serializedPubKey[0]` on an empty key. -/
def newAddressPubKey (ecc : Ecc) (serializedPubKey : List UInt8) (net : Net) :
    Option (Except GoError Address) :=
  match ecc.parsePubKey serializedPubKey with
  | .error e => some (.error e)
  | .ok _ =>
    serializedPubKey.head?.map fun b =>
      let pkFormat := if b = 0x02 ∨ b = 0x03 then PubKeyFormat.compressed
        else if b = 0x06 ∨ b = 0x07 then .hybrid else .uncompressed
      .ok (.pubKey pkFormat net.params.legacyPubKeyHashAddrID)

/-- A hex digit's value, as Go's `encoding/hex` reads it. -/
def fromHexChar (c : UInt8) : Option Nat :=
  if isDigit c then some (c.toNat - 48)
  else if 'a'.toUInt8 ≤ c ∧ c ≤ 'f'.toUInt8 then some (c.toNat - 87)
  else if 'A'.toUInt8 ≤ c ∧ c ≤ 'F'.toUInt8 then some (c.toNat - 55)
  else none

/-- An uppercase hex digit, as `%X` writes it. -/
def upperHexDigit (d : Nat) : Char := if d < 10 then Char.ofNat (48 + d) else Char.ofNat (55 + d)

/-- Go's `%#U` of a byte's rune: `U+00` and two hex digits, then the character in quotes
when `strconv.IsPrint` holds, which on Latin-1 is from space to `~` and from `0xA1` on,
soft hyphen `0xAD` excepted. -/
def runeText (c : UInt8) : String :=
  let code := "U+00" ++ String.mk [upperHexDigit (c.toNat / 16), upperHexDigit (c.toNat % 16)]
  let quote := String.singleton (Char.ofNat 39)
  if (0x20 ≤ c.toNat ∧ c.toNat ≤ 0x7e) ∨ (0xa1 ≤ c.toNat ∧ c.toNat ≠ 0xad) then
    code ++ " " ++ quote ++ String.singleton (Char.ofNat c.toNat) ++ quote
  else code

/-- `hex.InvalidByteError` on the byte `c`, `encoding/hex: invalid byte: %#U`. -/
def invalidByteError (c : UInt8) : GoError := .new ("encoding/hex: invalid byte: " ++ runeText c)

/-- `hex.ErrLength`. -/
def errLength : GoError := .new "encoding/hex: odd length hex string"

/-- Go's `hex.DecodeString`: pair by pair, the first byte of a pair checked first; a last
unpaired byte is reported as invalid before the odd length. -/
def hexDecodeString : List UInt8 → Except GoError (List UInt8)
  | [] => .ok []
  | [c] => .error (if (fromHexChar c).isSome then errLength else invalidByteError c)
  | a :: b :: rest =>
    match fromHexChar a, fromHexChar b with
    | some x, some y => (hexDecodeString rest).map ((x * 16 + y).toUInt8 :: ·)
    | none, _ => .error (invalidByteError a)
    | some _, none => .error (invalidByteError b)

/-- `DecodeAddress` after the cash attempt: a serialized public key, or a Base58Check
legacy address whose version byte the registry knows. -/
def decodeLegacyAddress (ecc : Ecc) (sha256 : Digest 32) (addr : List UInt8) (defaultNet : Net) :
    Option (Except GoError Address) :=
  if addr.length = 130 ∨ addr.length = 66 then
    match hexDecodeString addr with
    | .error e => some (.error e)
    | .ok serializedPubKey => newAddressPubKey ecc serializedPubKey defaultNet
  else
    match Base58.checkDecode sha256 addr with
    | .error e => some (.error (if e = .errChecksum then .errChecksumMismatch
        else .new "decoded address is of unknown format"))
    | .ok (decoded, netID) =>
      if decoded.length = 20 then
        let isP2PKH := isPubKeyHashAddrID registry netID
        let isP2SH := isScriptHashAddrID registry netID
        if isP2PKH && isP2SH then some (.error .errAddressCollision)
        else if isP2PKH then some (newLegacyAddressPubKeyHash decoded netID)
        else if isP2SH then some (newLegacyAddressScriptHashFromHash decoded netID)
        else some (.error .errUnknownAddressType)
      else some (.error (.new "decoded address is of unknown size"))

/-- The string the cash attempt reads: the prefix and separator are put in front unless
the string starts with them. -/
def withPrefix (pre addr : List UInt8) : List UInt8 :=
  if addr.take (pre.length + 1) ≠ pre ++ ascii ":" then pre ++ ascii ":" ++ addr else addr

/-- `DecodeAddress`; `none` is a panic on the way. -/
def decodeAddress (ecc : Ecc) (sha256 : Digest 32) (addr : List UInt8) (defaultNet : Net) :
    Option (Except GoError Address) :=
  match prefixes.lookup defaultNet with
  | none => some (.error (.new "unknown network parameters"))
  | some pre =>
    if addr.length < pre.length + 2 then some (.error (.new "invalid length address"))
    else
      match checkDecodeCashAddress (withPrefix pre addr) with
      | none => none
      | some (.ok (decoded, _, typ)) =>
        if decoded.length = 20 then
          if typ = addrTypePayToPubKeyHash then some (newAddressPubKeyHash decoded defaultNet)
          else some (.error .errUnknownAddressType)
        else some (.error (.new "decoded address is of unknown size"))
      | some (.error e) =>
        if e = .errChecksumMismatch then some (.error .errChecksumMismatch)
        else decodeLegacyAddress ecc sha256 addr defaultNet

theorem length_hexDecodeString : ∀ {s b : List UInt8}, hexDecodeString s = .ok b →
    s.length = 2 * b.length
  | [], b, h => by cases h; rfl
  | [c], b, h => by cases h
  | x :: y :: rest, b, h => by
    simp only [hexDecodeString] at h
    split at h
    · cases hr : hexDecodeString rest with
      | error e => rw [hr] at h; cases h
      | ok b' =>
        rw [hr] at h
        cases h
        simp [length_hexDecodeString hr]
        omega
    all_goals cases h

/-- Every error of the hex decoder names the first byte that is not a hex digit, or, when
there is none, is the odd-length error. -/
theorem hexDecodeString_error : ∀ {s : List UInt8} {e : GoError}, hexDecodeString s = .error e →
    (∃ pre c post, s = pre ++ c :: post ∧ (∀ d ∈ pre, (fromHexChar d).isSome) ∧
      fromHexChar c = none ∧ e = invalidByteError c) ∨
    (e = errLength ∧ s.length % 2 = 1 ∧ ∀ d ∈ s, (fromHexChar d).isSome)
  | [], e, h => by cases h
  | [c], e, h => by
    simp only [hexDecodeString, Except.error.injEq] at h
    split_ifs at h with hc
    · exact .inr ⟨h.symm, rfl, by simpa using hc⟩
    · exact .inl ⟨[], c, [], rfl, by simp, by simpa using hc, h.symm⟩
  | a :: b :: rest, e, h => by
    simp only [hexDecodeString] at h
    split at h
    · next x y ha hb =>
      cases hr : hexDecodeString rest with
      | ok b' => rw [hr] at h; cases h
      | error e' =>
        rw [hr] at h
        cases h
        rcases hexDecodeString_error hr with ⟨pre, c, post, rfl, hpre, hc, rfl⟩ | ⟨rfl, hodd, hall⟩
        · refine .inl ⟨a :: b :: pre, c, post, rfl, ?_, hc, rfl⟩
          simpa [ha, hb] using hpre
        · refine .inr ⟨rfl, by simp; omega, ?_⟩
          simpa [ha, hb] using hall
    · next ha => cases h; exact .inl ⟨[], a, b :: rest, rfl, by simp, ha, rfl⟩
    · next x ha hb => cases h; exact .inl ⟨[a], b, rest, rfl, by simp [ha], hb, rfl⟩

example : hexDecodeString (ascii "0fz1") = .error (invalidByteError 0x7a) ∧
    runeText 0x7a = "U+007A " ++ String.singleton (Char.ofNat 39) ++ "z" ++
      String.singleton (Char.ofNat 39) := ⟨rfl, by decide⟩

theorem colon_mem_prefix (pre : List UInt8) : ':'.toUInt8 ∈ pre ++ ascii ":" :=
  List.mem_append_right _ (by decide)

/-- The string the cash attempt reads is the prefix, the separator and a rest, which is
the input itself or what follows the input's own prefix. -/
theorem withPrefix_eq (pre addr : List UInt8) : ∃ rest, withPrefix pre addr =
    pre ++ ':'.toUInt8 :: rest ∧ (rest = addr ∨ addr = pre ++ ':'.toUInt8 :: rest) := by
  have hcolon : ascii ":" = [':'.toUInt8] := rfl
  unfold withPrefix
  split_ifs with h
  · exact ⟨addr, by rw [hcolon, List.append_assoc]; rfl, .inl rfl⟩
  · refine ⟨addr.drop (pre.length + 1), ?_, .inr ?_⟩ <;>
    · conv_lhs => rw [← List.take_append_drop (pre.length + 1) addr, not_not.mp h]
      rw [hcolon, List.append_assoc]; rfl

theorem withPrefix_of_colon_not_mem {pre addr : List UInt8} (h : ':'.toUInt8 ∉ addr) :
    withPrefix pre addr = pre ++ ':'.toUInt8 :: addr := by
  have hne : addr.take (pre.length + 1) ≠ pre ++ ascii ":" := fun he =>
    h (List.mem_of_mem_take (he ▸ colon_mem_prefix pre))
  rw [withPrefix, if_pos hne, List.append_assoc]
  rfl

theorem withPrefix_of_ne {pre a rest : List UInt8} (ha : a.length = pre.length) (hne : a ≠ pre) :
    withPrefix pre (a ++ ':'.toUInt8 :: rest) = pre ++ ':'.toUInt8 :: (a ++ ':'.toUInt8 :: rest) := by
  have htake : (a ++ ':'.toUInt8 :: rest).take (pre.length + 1) = a ++ ascii ":" := by
    rw [List.take_append_eq_append_take, List.take_of_length_le (by omega), ha,
      Nat.add_sub_cancel_left]
    rfl
  rw [withPrefix, htake, if_pos (fun h => hne (List.append_cancel_right h)), List.append_assoc]
  rfl

theorem withPrefix_self (pre rest : List UInt8) :
    withPrefix pre (pre ++ ':'.toUInt8 :: rest) = pre ++ ':'.toUInt8 :: rest := by
  have hcolon : ascii ":" = [':'.toUInt8] := rfl
  rw [withPrefix, if_neg (by rw [hcolon, ← List.singleton_append, ← List.append_assoc,
    List.take_left' (by simp)]; exact not_not.mpr rfl)]

/-- The prefixes of the two networks `CheckBCHAddress` uses. -/
theorem prefixes_lookup_bch (main : Bool) : prefixes.lookup (if main then .mainNet else .testNet3) =
    some (if main then ascii "bitcoincash" else ascii "bchtest") := by
  cases main <;> rfl

section
variable {ecc : Ecc} {sha256 : Digest 32} {addr pre : List UInt8} {net : Net}

theorem decodeAddress_of_cash_none (hpre : prefixes.lookup net = some pre)
    (hlen : pre.length + 2 ≤ addr.length) (hr : checkDecodeCashAddress (withPrefix pre addr) = none) :
    decodeAddress ecc sha256 addr net = none := by
  simp only [decodeAddress, hpre, if_neg (Nat.not_lt.mpr hlen), hr]

theorem decodeAddress_of_cash_ok (hpre : prefixes.lookup net = some pre)
    (hlen : pre.length + 2 ≤ addr.length) {decoded p : List UInt8} {typ : Int}
    (hr : checkDecodeCashAddress (withPrefix pre addr) = some (.ok (decoded, p, typ))) :
    decodeAddress ecc sha256 addr net = if decoded.length = 20 then
      (if typ = addrTypePayToPubKeyHash then some (newAddressPubKeyHash decoded net)
        else some (.error .errUnknownAddressType))
      else some (.error (.new "decoded address is of unknown size")) := by
  simp only [decodeAddress, hpre, if_neg (Nat.not_lt.mpr hlen), hr]

theorem decodeAddress_of_cash_error (hpre : prefixes.lookup net = some pre)
    (hlen : pre.length + 2 ≤ addr.length) {e : GoError}
    (hr : checkDecodeCashAddress (withPrefix pre addr) = some (.error e)) :
    decodeAddress ecc sha256 addr net = if e = .errChecksumMismatch then
      some (.error .errChecksumMismatch) else decodeLegacyAddress ecc sha256 addr net := by
  simp only [decodeAddress, hpre, if_neg (Nat.not_lt.mpr hlen), hr]

end

theorem newAddressPubKey_isSome (ecc : Ecc) {b : List UInt8} (hb : b ≠ []) (net : Net) :
    (newAddressPubKey ecc b net).isSome := by
  unfold newAddressPubKey
  split
  · rfl
  · cases b with
    | nil => exact absurd rfl hb
    | cons x b => rfl

theorem decodeLegacyAddress_isSome (ecc : Ecc) (sha256 : Digest 32) (addr : List UInt8)
    (net : Net) : (decodeLegacyAddress ecc sha256 addr net).isSome := by
  unfold decodeLegacyAddress
  split_ifs with hl
  · cases hx : hexDecodeString addr with
    | error e => rfl
    | ok b =>
      refine newAddressPubKey_isSome ecc ?_ net
      rintro rfl
      have := length_hexDecodeString hx
      rw [List.length_nil, Nat.mul_zero] at this
      omega
  · cases Base58.checkDecode sha256 addr with
    | error e => rfl
    | ok r => dsimp only; split_ifs <;> rfl

/-- Under a short-safe lowercase prefix `DecodeAddress` never panics: the cash slice is
guarded by `verifyChecksum_of_shortSafe`, and a serialized key is never empty. -/
theorem decodeAddress_isSome_of_shortSafe (ecc : Ecc) (sha256 : Digest 32) (addr : List UInt8)
    {net : Net} {pre : List UInt8} (hnet : prefixes.lookup net = some pre)
    (hlow : ∀ c ∈ pre, isLower c = true) (hsafe : shortSafe pre = true) :
    (decodeAddress ecc sha256 addr net).isSome := by
  by_cases hlen : pre.length + 2 ≤ addr.length
  · obtain ⟨rest, hrest, -⟩ := withPrefix_eq pre addr
    have hsome := decodeCashAddress_isSome hlow hsafe rest
    rw [← hrest] at hsome
    cases hc : checkDecodeCashAddress (withPrefix pre addr) with
    | none =>
      simp only [checkDecodeCashAddress, Option.map_eq_none'] at hc
      rw [hc] at hsome; cases hsome
    | some r =>
      rcases r with e | ⟨decoded, p, typ⟩
      · rw [decodeAddress_of_cash_error hnet hlen hc]
        by_cases he : e = .errChecksumMismatch
        · rw [if_pos he]; rfl
        · rw [if_neg he]; exact decodeLegacyAddress_isSome ecc sha256 addr _
      · rw [decodeAddress_of_cash_ok hnet hlen hc]
        split_ifs <;> rfl
  · simp only [decodeAddress, hnet, if_pos (Nat.lt_of_not_le hlen)]
    rfl

/-- On the two BCH networks `DecodeAddress` never panics. -/
theorem decodeAddress_isSome (ecc : Ecc) (sha256 : Digest 32) (addr : List UInt8) (main : Bool) :
    (decodeAddress ecc sha256 addr (if main then .mainNet else .testNet3)).isSome := by
  refine decodeAddress_isSome_of_shortSafe ecc sha256 addr (prefixes_lookup_bch main)
    (by cases main <;> decide) ?_
  cases main
  · exact shortSafe_bchtest
  · exact shortSafe_bitcoincash

theorem prefixes_lower {net : Net} {pre : List UInt8} (hpre : prefixes.lookup net = some pre) :
    pre ≠ [] ∧ ∀ c ∈ pre, isLower c = true := by
  cases net <;> cases hpre <;> decide

section
variable {ecc : Ecc} {sha256 : Digest 32} {addr pre : List UInt8} {net : Net}

/-- A success of `DecodeAddress` came from the cash form under the network's prefix, with
42 values whose checksum verifies, or from the legacy decoders. -/
theorem decodeAddress_ok (hpre : prefixes.lookup net = some pre) {a : Address}
    (h : decodeAddress ecc sha256 addr net = some (.ok a)) :
    (∃ rest values, withPrefix pre addr = pre ++ ':'.toUInt8 :: rest ∧
      (rest = addr ∨ addr = pre ++ ':'.toUInt8 :: rest) ∧
      rest.mapM charsetRevAt = some values ∧ verifyChecksum pre values = true ∧
      values.length = 42) ∨
    decodeLegacyAddress ecc sha256 addr net = some (.ok a) := by
  by_cases hlen : pre.length + 2 ≤ addr.length
  swap
  · simp only [decodeAddress, hpre, if_pos (Nat.lt_of_not_le hlen)] at h; cases h
  cases hc : checkDecodeCashAddress (withPrefix pre addr) with
  | none => rw [decodeAddress_of_cash_none hpre hlen hc] at h; cases h
  | some r =>
    rcases r with e | ⟨decoded, p, typ⟩
    · rw [decodeAddress_of_cash_error hpre hlen hc] at h
      split_ifs at h
      · cases h
      · exact .inr h
    · obtain ⟨values, hpv, hver, hl, -⟩ := checkDecodeCashAddress_ok hc
      obtain ⟨rest, hrest, hor⟩ := withPrefix_eq pre addr
      rw [hrest] at hpv
      obtain ⟨rfl, hvals⟩ := prefixAndValues_of_lowercase (prefixes_lower hpre).2 hpv
      exact .inl ⟨rest, values, hrest, hor, hvals, hver, hl⟩

/-- A string of letters and digits with a character off the cash alphabet fails the cash
attempt with a format error, and `DecodeAddress` goes on to the legacy decoders. -/
theorem decodeAddress_of_not_cash (hpre : prefixes.lookup net = some pre)
    (hlen : pre.length + 2 ≤ addr.length) (hs : ∀ c ∈ addr, isLower c ∨ isUpper c ∨ isDigit c)
    (hc : ∃ c ∈ addr, c ∉ bchBase32Encoder) :
    decodeAddress ecc sha256 addr net = decodeLegacyAddress ecc sha256 addr net := by
  have hcolon : ':'.toUInt8 ∉ addr := fun hm => by
    have := colon_not_letter
    rcases hs _ hm with h | h | h <;> simp_all
  obtain ⟨hp, hlow⟩ := prefixes_lower hpre
  obtain ⟨e, hpv⟩ := prefixAndValues_off_alphabet hp hlow hs hc
  have hcd : checkDecodeCashAddress (withPrefix pre addr) = some (.error e) := by
    simp [withPrefix_of_colon_not_mem hcolon, checkDecodeCashAddress, decodeCashAddress, hpv]
  rw [decodeAddress_of_cash_error hpre hlen hcd, if_neg (prefixAndValues_error hpv)]

/-- Off the serialized-key case, the legacy decoders never read the network. -/
theorem decodeLegacyAddress_net
    (hx : ¬ ((addr.length = 66 ∨ addr.length = 130) ∧ (hexDecodeString addr).isOk = true))
    (net' : Net) : decodeLegacyAddress ecc sha256 addr net = decodeLegacyAddress ecc sha256 addr net' := by
  unfold decodeLegacyAddress
  split_ifs with hl
  · cases hd : hexDecodeString addr with
    | error e => rfl
    | ok b => exact absurd ⟨by omega, by rw [hd]; rfl⟩ hx
  · rfl

/-- A Base58Check string that does not decode to 20 bytes is refused. -/
theorem decodeLegacyAddress_of_size (hlen : ¬ (addr.length = 130 ∨ addr.length = 66))
    (hsize : ∀ decoded v, Base58.checkDecode sha256 addr = .ok (decoded, v) → decoded.length ≠ 20) :
    ∃ e, decodeLegacyAddress ecc sha256 addr net = some (.error e) := by
  simp only [decodeLegacyAddress, if_neg hlen]
  cases hd : Base58.checkDecode sha256 addr with
  | error e => exact ⟨_, rfl⟩
  | ok r =>
    obtain ⟨decoded, v⟩ := r
    exact ⟨_, if_neg (hsize decoded v hd)⟩

/-- The separator is no Base58 digit. -/
theorem decodeLegacyAddress_of_colon (hlen : ¬ (addr.length = 130 ∨ addr.length = 66))
    (hc : ':'.toUInt8 ∈ addr) : ∃ e, decodeLegacyAddress ecc sha256 addr net = some (.error e) := by
  refine decodeLegacyAddress_of_size hlen fun decoded v hd => ?_
  have := Base58.length_checkDecode hd
  rw [Base58.decode_of_not_mem hc (by decide), List.length_nil] at this
  omega

/-- A 42-character string, the length of a cash data part, not led by the zero digit is
too long for a 20-byte legacy payload. -/
theorem decodeLegacyAddress_of_long (h42 : addr.length = 42)
    (hlead : addr.head? ≠ some Base58.leadingChar) :
    ∃ e, decodeLegacyAddress ecc sha256 addr net = some (.error e) := by
  refine decodeLegacyAddress_of_size (by omega) fun decoded v hd => ?_
  have := Base58.length_checkDecode hd
  rcases Base58.length_decode_long h42 hlead with h | h
  · rw [h, List.length_nil] at this; omega
  · omega

/-- A string holding the separator, read by the cash attempt behind the prefix, fails both
attempts. -/
theorem decodeAddress_of_colon (hpre : prefixes.lookup net = some pre)
    (hlen : pre.length + 2 ≤ addr.length) (hw : withPrefix pre addr = pre ++ ':'.toUInt8 :: addr)
    (hc : ':'.toUInt8 ∈ addr) (hl : ¬ (addr.length = 130 ∨ addr.length = 66)) :
    ∃ e, decodeAddress ecc sha256 addr net = some (.error e) := by
  obtain ⟨e, hpv⟩ : ∃ e, prefixAndValues (pre ++ ':'.toUInt8 :: addr) = .error e := by
    cases hpv : prefixAndValues (pre ++ ':'.toUInt8 :: addr) with
    | error e => exact ⟨e, rfl⟩
    | ok pv =>
      exact absurd hc (not_mem_of_mapM_some
        (prefixAndValues_of_lowercase (prefixes_lower hpre).2 hpv).2 charsetRevAt_colon)
  have hcd : checkDecodeCashAddress (withPrefix pre addr) = some (.error e) := by
    simp [hw, checkDecodeCashAddress, decodeCashAddress, hpv]
  rw [decodeAddress_of_cash_error hpre hlen hcd, if_neg (prefixAndValues_error hpv)]
  exact decodeLegacyAddress_of_colon hl hc

/-- What the Base58Check branch makes of a 20-byte payload. -/
theorem decodeLegacyAddress_of_checkDecode (hl : ¬ (addr.length = 130 ∨ addr.length = 66))
    {h : List UInt8} (hh : h.length = 20) {v : UInt8}
    (hd : Base58.checkDecode sha256 addr = .ok (h, v)) :
    decodeLegacyAddress ecc sha256 addr net =
      if isPubKeyHashAddrID registry v && isScriptHashAddrID registry v then
        some (.error .errAddressCollision)
      else if isPubKeyHashAddrID registry v then some (.ok (.legacyPubKeyHash ⟨h, hh⟩ v))
      else if isScriptHashAddrID registry v then some (.ok (.legacyScriptHash ⟨h, hh⟩ v))
      else some (.error .errUnknownAddressType) := by
  simp only [decodeLegacyAddress, if_neg hl, hd, if_pos hh, newLegacyAddressPubKeyHash,
    newLegacyAddressScriptHashFromHash, newHash20Address, dif_pos hh]

end

section
variable {ecc : Ecc} {sha256 : Digest 32} {addr pre : List UInt8} {net : Net}

/-- What a success of the legacy decoders is: a serialized key the parser takes, or a 20-byte
Base58Check payload behind a registered P2PKH or P2SH version byte. -/
theorem decodeLegacyAddress_ok {a : Address}
    (h : decodeLegacyAddress ecc sha256 addr net = some (.ok a)) :
    ((addr.length = 130 ∨ addr.length = 66) ∧ ∃ fmt b k, a = .pubKey fmt net.params.legacyPubKeyHashAddrID ∧
      hexDecodeString addr = .ok b ∧ ecc.parsePubKey b = .ok k) ∨
    ∃ hash v, Base58.checkDecode sha256 addr = .ok (hash.bytes, v) ∧
      (a = .legacyPubKeyHash hash v ∧ isPubKeyHashAddrID registry v = true ∨
        a = .legacyScriptHash hash v ∧ isScriptHashAddrID registry v = true) := by
  by_cases hl : addr.length = 130 ∨ addr.length = 66
  · refine .inl ⟨hl, ?_⟩
    simp only [decodeLegacyAddress, if_pos hl] at h
    cases hx : hexDecodeString addr with
    | error e => rw [hx] at h; cases h
    | ok b =>
      rw [hx] at h
      simp only [newAddressPubKey] at h
      cases hk : ecc.parsePubKey b with
      | error e => rw [hk] at h; cases h
      | ok k =>
        rw [hk] at h
        cases b with
        | nil => cases h
        | cons x b => cases h; exact ⟨_, x :: b, k, rfl, rfl, hk⟩
  · refine .inr ?_
    cases hd : Base58.checkDecode sha256 addr with
    | error e => simp [decodeLegacyAddress, hl, hd] at h
    | ok r =>
      obtain ⟨decoded, v⟩ := r
      by_cases h20 : decoded.length = 20
      · rw [decodeLegacyAddress_of_checkDecode hl h20 hd] at h
        split_ifs at h with hboth hp hs <;> cases h
        · exact ⟨⟨decoded, h20⟩, v, rfl, .inl ⟨rfl, hp⟩⟩
        · exact ⟨⟨decoded, h20⟩, v, rfl, .inr ⟨rfl, hs⟩⟩
      · simp [decodeLegacyAddress, hl, hd, h20] at h

/-- The successes of `DecodeAddress`: a P2PKH cash address of the network's prefix, or what
the legacy decoders return. -/
theorem decodeAddress_ok_cases (hpre : prefixes.lookup net = some pre) {a : Address}
    (h : decodeAddress ecc sha256 addr net = some (.ok a)) :
    (∃ hash p, checkDecodeCashAddress (withPrefix pre addr) =
      some (.ok (hash.bytes, p, addrTypePayToPubKeyHash)) ∧ a = .pubKeyHash hash pre) ∨
    decodeLegacyAddress ecc sha256 addr net = some (.ok a) := by
  by_cases hlen : pre.length + 2 ≤ addr.length
  swap
  · simp only [decodeAddress, hpre, if_pos (Nat.lt_of_not_le hlen)] at h; cases h
  cases hc : checkDecodeCashAddress (withPrefix pre addr) with
  | none => rw [decodeAddress_of_cash_none hpre hlen hc] at h; cases h
  | some r =>
    rcases r with e | ⟨decoded, p, typ⟩
    · rw [decodeAddress_of_cash_error hpre hlen hc] at h
      split_ifs at h
      · cases h
      · exact .inr h
    · rw [decodeAddress_of_cash_ok hpre hlen hc] at h
      split_ifs at h with h20 ht <;> try cases h
      subst ht
      simp only [newAddressPubKeyHash, dif_pos h20, hpre, Option.some.injEq, Except.ok.injEq] at h
      exact .inl ⟨⟨decoded, h20⟩, p, rfl, h.symm⟩

/-- `DecodeAddress` is canonical: the input is what the encoders write for what it returns.
A cash result is, exactly as given, the network's prefix and separator (or nothing) before
`encode`'s spelling of a version byte other than `0x08` and the hash; a legacy result is
`CheckEncode` of its hash and registered version byte; a key is the hex of a serialized
key the parser takes. -/
theorem decodeAddress_canonical (hpre : prefixes.lookup net = some pre) {a : Address}
    (h : decodeAddress ecc sha256 addr net = some (.ok a)) :
    (∃ hash v groups enc, a = .pubKeyHash hash pre ∧ v ≠ 0x08 ∧
      convertBits (v :: hash.bytes) 8 5 true = .ok groups ∧
      AddressUtil.encode pre groups = some enc ∧ (addr = pre ++ ':'.toUInt8 :: enc ∨ addr = enc)) ∨
    (∃ hash v, (a = .legacyPubKeyHash hash v ∧ isPubKeyHashAddrID registry v = true ∨
        a = .legacyScriptHash hash v ∧ isScriptHashAddrID registry v = true) ∧
      addr = Base58.checkEncode sha256 hash.bytes v) ∨
    ((addr.length = 130 ∨ addr.length = 66) ∧ ∃ fmt b k,
      a = .pubKey fmt net.params.legacyPubKeyHashAddrID ∧ hexDecodeString addr = .ok b ∧
      ecc.parsePubKey b = .ok k) := by
  rcases decodeAddress_ok_cases hpre h with ⟨hash, p, hc, rfl⟩ | hleg
  · left
    obtain ⟨hp0, hlow⟩ := prefixes_lower hpre
    obtain ⟨v, groups, enc, -, hpack, henc, hmap, ht⟩ := checkDecodeCashAddress_canonical hc
    obtain ⟨values, hpv, -⟩ := checkDecodeCashAddress_ok hc
    obtain ⟨rest, hrest, hor⟩ := withPrefix_eq pre addr
    rw [hrest] at hpv hmap
    obtain ⟨rfl, -⟩ := prefixAndValues_of_lowercase hlow hpv
    rw [prefixAndValues_no_upper hp0 hlow hpv] at hmap
    obtain rfl := (List.cons.inj (List.append_cancel_left hmap)).2
    refine ⟨hash, v, groups, rest, rfl, fun hv => ?_, hpack, henc, hor.symm.imp_right Eq.symm⟩
    rw [if_pos hv] at ht
    exact absurd ht (by decide)
  · right
    rcases decodeLegacyAddress_ok hleg with hkey | ⟨hash, v, hd, ha⟩
    · exact .inr hkey
    · exact .inl ⟨hash, v, ha, (Base58.checkEncode_checkDecode hd).symm⟩

end

/-- Every network's prefix is short-safe. -/
theorem prefixes_shortSafe {net : Net} {pre : List UInt8} (hpre : prefixes.lookup net = some pre) :
    shortSafe pre = true := by
  cases net <;> cases hpre <;> decide

/-- `DecodeAddress` never panics, on any string and any of the four networks' parameters: the
prefixes `bitcoincash`, `bchtest`, `bchreg` and `bchsim` are all short-safe. -/
theorem decodeAddress_never_panics (ecc : Ecc) (sha256 : Digest 32) (addr : List UInt8) (net : Net) :
    (decodeAddress ecc sha256 addr net).isSome := by
  cases hpre : prefixes.lookup net with
  | none => simp [decodeAddress, hpre]
  | some pre =>
    exact decodeAddress_isSome_of_shortSafe ecc sha256 addr hpre (prefixes_lower hpre).2
      (prefixes_shortSafe hpre)

end AddressUtil.Bchutil
