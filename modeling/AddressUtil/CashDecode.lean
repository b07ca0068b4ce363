import AddressUtil.CashEncode

/-! bchutil's `DecodeCashAddress`, whose first loop is `scan`, and `checkDecodeCashAddress`: the
exact language, single and burst errors, canonicity and the panic on short data. -/

namespace AddressUtil.Bchutil

/-- bchutil's `AddrTypePayToPubKeyHash`. -/
def addrTypePayToPubKeyHash : Int := 0

/-- bchutil's `AddrTypePayToScriptHash`. -/
def addrTypePayToScriptHash : Int := 1

/-- `CharsetRev`: the symbol of each ASCII character, `-1` off the alphabet. -/
def charsetRev : List Int := [
  -1, -1, -1, -1, -1, -1, -1, -1, -1, -1, -1, -1, -1, -1, -1, -1, -1, -1, -1,
  -1, -1, -1, -1, -1, -1, -1, -1, -1, -1, -1, -1, -1, -1, -1, -1, -1, -1, -1,
  -1, -1, -1, -1, -1, -1, -1, -1, -1, -1, 15, -1, 10, 17, 21, 20, 26, 30, 7,
  5, -1, -1, -1, -1, -1, -1, -1, 29, -1, 24, 13, 25, 9, 8, 23, -1, 18, 22,
  31, 27, 19, -1, 1, 0, 3, 16, 11, 28, 12, 14, 6, 4, 2, -1, -1, -1, -1,
  -1, -1, 29, -1, 24, 13, 25, 9, 8, 23, -1, 18, 22, 31, 27, 19, -1, 1, 0,
  3, 16, 11, 28, 12, 14, 6, 4, 2, -1, -1, -1, -1, -1]

/-- `lowerCase`: `c | 0x20`. -/
def lowerCase (c : UInt8) : UInt8 := c ||| 0x20

/-- The value of a data character, `byte(CharsetRev[c])`; `none` where `DecodeCashAddress`
reports an invalid character, `c > 127 || CharsetRev[c] == -1`. -/
def charsetRevAt (c : UInt8) : Option UInt8 :=
  if c.toNat > 127 then none
  else
    let v := charsetRev.getD c.toNat (-1)
    if v = -1 then none else some v.toNat.toUInt8

/-- The variables of `DecodeCashAddress`'s first loop. -/
structure CaseScan where
  lower : Bool
  upper : Bool
  prefixSize : Nat

/-- One iteration of the first loop, on the character `c` at index `i`. -/
def scanStep (i : Nat) (c : UInt8) (s : CaseScan) : Except GoError CaseScan :=
  if isLower c then .ok { s with lower := true }
  else if isUpper c then .ok { s with upper := true }
  else if isDigit c then
    if s.prefixSize = 0 then .error (.new "addresses cannot have numbers in the prefix")
    else .ok s
  else if c = ':'.toUInt8 then
    if i = 0 ∨ s.prefixSize ≠ 0 then .error (.new "the separator must not be the first character")
    else .ok { s with prefixSize := i }
  else .error (.new "unexpected character")

/-- The first loop of `DecodeCashAddress`, from index `i`. -/
def scan (i : Nat) : List UInt8 → CaseScan → Except GoError CaseScan
  | [], s => .ok s
  | c :: cs, s => (scanStep i c s).bind (scan (i + 1) cs)

/-- What `DecodeCashAddress` does before the checksum: the sanity checks, the prefix
(Go's `string(lowerCase(str[i]))` is one byte, as the prefix holds only letters) and the
values. -/
def prefixAndValues (str : List UInt8) : Except GoError (List UInt8 × List UInt8) :=
  match scan 0 str ⟨false, false, 0⟩ with
  | .error e => .error e
  | .ok s =>
    if s.prefixSize = 0 then .error (.new "address must have a prefix")
    else if s.upper && s.lower then
      .error (.new "addresses cannot use both upper and lower case characters")
    else
      match (str.drop (s.prefixSize + 1)).mapM charsetRevAt with
      | none => .error (.new "invalid character")
      | some values => .ok ((str.take s.prefixSize).map lowerCase, values)

/-- `DecodeCashAddress`; `none` is the panic of `values[:len(values)-8]` on fewer than
eight values, which only a passing checksum reaches. -/
def decodeCashAddress (str : List UInt8) : Option (Except GoError (List UInt8 × List UInt8)) :=
  match prefixAndValues str with
  | .error e => some (.error e)
  | .ok (pfx, values) =>
    if !verifyChecksum pfx values then some (.error .errChecksumMismatch)
    else if values.length < 8 then none
    else some (.ok (pfx, values.take (values.length - 8)))

/-- `checkDecodeCashAddress`. The switch on the version byte has no default branch, so a
byte other than `0x00` and `0x08` leaves `t` at its zero value, P2PKH. The values Go
returns beside an error are left out: no caller reads them. -/
def checkDecodeCashAddress (input : List UInt8) :
    Option (Except GoError (List UInt8 × List UInt8 × Int)) :=
  (decodeCashAddress input).map fun
    | .error e => .error e
    | .ok (pfx, data) =>
      match convertBits data 5 8 false with
      | .error e => .error e
      | .ok data =>
        if data.length ≠ 21 then .error (.new "incorrect data length")
        else
          let t := if data.headD 0 = 0x00 then addrTypePayToPubKeyHash
            else if data.headD 0 = 0x08 then addrTypePayToScriptHash
            else addrTypePayToPubKeyHash
          .ok ((data.drop 1).take 20, pfx, t)

theorem charsetRevAt_bytes : ∀ n < 256, (charsetRevAt n.toUInt8).all (fun v =>
    decide (v.toNat < 32) && (isLower n.toUInt8 || isUpper n.toUInt8 || isDigit n.toUInt8) &&
      foldCase n.toUInt8 == bchBase32Encoder.getD v.toNat 0) = true := by
  set_option maxRecDepth 4000 in decide

/-- A character with a value is a letter or a digit of the alphabet, its value is a
symbol, and it is the alphabet's character for that symbol up to case. -/
theorem charsetRevAt_some {c v : UInt8} (h : charsetRevAt c = some v) :
    v.toNat < 32 ∧ (isLower c || isUpper c || isDigit c) = true ∧
      foldCase c = bchBase32Encoder.getD v.toNat 0 := by
  have := charsetRevAt_bytes c.toNat (toNat_lt_256 c)
  simpa [h, and_assoc] using this

theorem charsetRevAt_encoder : ∀ n < 32,
    charsetRevAt (bchBase32Encoder.getD n 0) = some n.toUInt8 := by
  decide

theorem charsetRevAt_encoder_upper : ∀ n < 32,
    charsetRevAt (upperCase (bchBase32Encoder.getD n 0)) = some n.toUInt8 := by
  decide

/-- On letters `lowerCase` is case folding, and its low five bits tell letters apart. -/
theorem lowerCase_letter : ∀ n < 256, (isLower n.toUInt8 || isUpper n.toUInt8) = true →
    lowerCase n.toUInt8 = foldCase n.toUInt8 ∧
      foldCase n.toUInt8 = (lowerCase n.toUInt8 &&& 0x1f) ||| 0x60 := by
  set_option maxRecDepth 4000 in decide

theorem colon_not_letter : (isLower ':'.toUInt8 || isUpper ':'.toUInt8 || isDigit ':'.toUInt8) =
    false := by
  decide

theorem charsetRevAt_colon : charsetRevAt ':'.toUInt8 = none := by decide

theorem scan_append (i : Nat) (xs ys : List UInt8) (s : CaseScan) :
    scan i (xs ++ ys) s = (scan i xs s).bind (scan (i + xs.length) ys) := by
  induction xs generalizing i s with
  | nil => rfl
  | cons c xs ih =>
    simp only [List.cons_append, scan, List.length_cons]
    cases scanStep i c s with
    | error e => rfl
    | ok s' =>
      show scan (i + 1) (xs ++ ys) s' = (scan (i + 1) xs s').bind (scan (i + (xs.length + 1)) ys)
      rw [ih, Nat.add_right_comm, Nat.add_assoc]

/-- What one step can do: record a letter's case, pass a digit after the separator, or
take the separator at a nonzero index while none was seen. -/
theorem scanStep_cases {i : Nat} {c : UInt8} {s s' : CaseScan} (h : scanStep i c s = .ok s') :
    (s'.prefixSize = s.prefixSize ∧ (isLower c ∨ isUpper c ∨ (isDigit c ∧ s.prefixSize ≠ 0))) ∨
      (c = ':'.toUInt8 ∧ i ≠ 0 ∧ s.prefixSize = 0 ∧ s'.prefixSize = i) := by
  unfold scanStep at h
  split_ifs at h with h1 h2 h3 h4 h5 h6 <;> cases h
  · exact .inl ⟨rfl, .inl h1⟩
  · exact .inl ⟨rfl, .inr (.inl h2)⟩
  · exact .inl ⟨rfl, .inr (.inr ⟨h3, h4⟩)⟩
  · exact .inr ⟨h5, by omega, by omega, rfl⟩

/-- A letter, or a digit after the separator, only records its case. -/
theorem scanStep_of_alnum {i : Nat} {c : UInt8} {s : CaseScan}
    (hc : isLower c ∨ isUpper c ∨ (isDigit c ∧ s.prefixSize ≠ 0)) :
    scanStep i c s = .ok { s with lower := s.lower || isLower c, upper := s.upper || isUpper c } := by
  obtain ⟨hlu, hld, hud⟩ := byte_classes c
  rcases hc with hc | hc | ⟨hc, hp⟩ <;> simp_all [scanStep]

theorem scan_alnum {i : Nat} {cs : List UInt8} {s : CaseScan}
    (hcs : ∀ c ∈ cs, isLower c ∨ isUpper c ∨ (isDigit c ∧ s.prefixSize ≠ 0)) :
    scan i cs s = .ok ⟨s.lower || cs.any isLower, s.upper || cs.any isUpper, s.prefixSize⟩ := by
  induction cs generalizing i s with
  | nil => simp [scan]
  | cons c cs ih =>
    rw [scan, scanStep_of_alnum (hcs c (List.mem_cons_self _ _))]
    refine Eq.trans (ih ?_) ?_
    · exact fun d hd => hcs d (List.mem_cons_of_mem _ hd)
    · simp [Bool.or_assoc]

theorem scanStep_colon {i : Nat} {s : CaseScan} (hi : i ≠ 0) (hs : s.prefixSize = 0) :
    scanStep i ':'.toUInt8 s = .ok { s with prefixSize := i } := by
  simp [scanStep, hi, hs, show isLower ':'.toUInt8 = false by decide,
    show isUpper ':'.toUInt8 = false by decide, show isDigit ':'.toUInt8 = false by decide]

/-- Once the separator is seen, the loop keeps it and meets no other. -/
theorem scan_keep {i : Nat} {cs : List UInt8} {s s' : CaseScan} (h : scan i cs s = .ok s')
    (hs : s.prefixSize ≠ 0) : s'.prefixSize = s.prefixSize ∧ ':'.toUInt8 ∉ cs := by
  induction cs generalizing i s with
  | nil => cases h; simp
  | cons c cs ih =>
    rw [scan] at h
    cases hstep : scanStep i c s with
    | error e => rw [hstep] at h; cases h
    | ok s₁ =>
      rw [hstep] at h
      rcases scanStep_cases hstep with ⟨hp, -⟩ | ⟨-, -, h0, -⟩
      · obtain ⟨hk, hn⟩ := ih h (hp ▸ hs)
        refine ⟨hk.trans hp, ?_⟩
        rintro (_ | ⟨_, hm⟩)
        · rcases scanStep_cases hstep with ⟨-, hc⟩ | ⟨-, -, h0, -⟩
          · have := colon_not_letter
            simp only [Bool.or_eq_false_iff] at this
            rcases hc with hc | hc | ⟨hc, -⟩ <;> simp_all
          · exact hs h0
        · exact hn hm
      · exact absurd h0 hs

/-- A string the loop accepts with a separator is letters, the separator at their
count, and the rest. -/
theorem scan_split {i : Nat} {cs : List UInt8} {s s' : CaseScan} (h : scan i cs s = .ok s')
    (hs : s.prefixSize = 0) (hs' : s'.prefixSize ≠ 0) :
    ∃ a b, cs = a ++ ':'.toUInt8 :: b ∧ (∀ c ∈ a, isLower c ∨ isUpper c) ∧
      s'.prefixSize = i + a.length ∧ i + a.length ≠ 0 := by
  induction cs generalizing i s with
  | nil => cases h; exact absurd hs hs'
  | cons c cs ih =>
    rw [scan] at h
    cases hstep : scanStep i c s with
    | error e => rw [hstep] at h; cases h
    | ok s₁ =>
      rw [hstep] at h
      rcases scanStep_cases hstep with ⟨hp, hc⟩ | ⟨rfl, hi, -, hp⟩
      · obtain ⟨a, b, rfl, ha, hpa, hne⟩ := ih h (hp.trans hs)
        refine ⟨c :: a, b, rfl, ?_, by rw [hpa, List.length_cons]; omega,
          by rw [List.length_cons]; omega⟩
        rintro d (_ | ⟨_, hd⟩)
        · rcases hc with hc | hc | ⟨-, hc⟩
          · exact .inl hc
          · exact .inr hc
          · exact absurd hs hc
        · exact ha d hd
      · refine ⟨[], cs, rfl, by simp, ?_, hi⟩
        rw [(scan_keep h (hp ▸ hi)).1, hp]; rfl

theorem drop_sep (a b : List UInt8) (x : UInt8) : (a ++ x :: b).drop (a.length + 1) = b := by
  rw [← List.singleton_append, ← List.append_assoc]
  exact List.drop_left' (by simp)

/-- What an accepted string looks like. -/
theorem prefixAndValues_ok {str pfx values : List UInt8}
    (h : prefixAndValues str = .ok (pfx, values)) :
    ∃ a b, str = a ++ ':'.toUInt8 :: b ∧ a ≠ [] ∧ (∀ c ∈ a, isLower c ∨ isUpper c) ∧
      pfx = a.map lowerCase ∧ b.mapM charsetRevAt = some values := by
  unfold prefixAndValues at h
  split at h
  · cases h
  · next s hscan =>
    split_ifs at h with h0
    obtain ⟨a, b, rfl, ha, hp, hne⟩ := scan_split hscan rfl h0
    rw [Nat.zero_add] at hp hne
    rw [hp, drop_sep] at h
    split at h
    · cases h
    · next v hv =>
      cases h
      exact ⟨a, b, rfl, List.ne_nil_of_length_pos (Nat.pos_of_ne_zero hne), ha,
        by rw [List.take_left' rfl], hv⟩

/-- The first loop over letters, the separator, and letters or digits. -/
theorem scan_address {a b : List UInt8} (ha0 : a ≠ []) (ha : ∀ c ∈ a, isLower c ∨ isUpper c)
    (hb : ∀ c ∈ b, isLower c ∨ isUpper c ∨ isDigit c) :
    scan 0 (a ++ ':'.toUInt8 :: b) ⟨false, false, 0⟩ =
      .ok ⟨a.any isLower || b.any isLower, a.any isUpper || b.any isUpper, a.length⟩ := by
  have hlen : a.length ≠ 0 := by simpa using ha0
  rw [scan_append, scan_alnum (fun c hc => (ha c hc).elim .inl (.inr ∘ .inl))]
  show (scanStep (0 + a.length) ':'.toUInt8 _).bind _ = _
  rw [scanStep_colon (by simpa using ha0) rfl]
  show scan (0 + a.length + 1) b _ = _
  rw [scan_alnum fun c hc => (hb c hc).elim .inl fun h =>
    h.elim (.inr ∘ .inl) fun h => .inr (.inr ⟨h, by simpa using hlen⟩)]
  simp

/-- What the checks before the checksum return on such a string. -/
theorem prefixAndValues_address {a b : List UInt8} (ha0 : a ≠ [])
    (ha : ∀ c ∈ a, isLower c ∨ isUpper c) (hb : ∀ c ∈ b, isLower c ∨ isUpper c ∨ isDigit c) :
    prefixAndValues (a ++ ':'.toUInt8 :: b) =
      if ((a ++ b).any isUpper && (a ++ b).any isLower) then
        .error (.new "addresses cannot use both upper and lower case characters")
      else match b.mapM charsetRevAt with
        | none => .error (.new "invalid character")
        | some values => .ok (a.map lowerCase, values) := by
  have hlen : a.length ≠ 0 := by simpa using ha0
  rw [List.any_append, List.any_append]
  simp only [prefixAndValues, scan_address ha0 ha hb, hlen, drop_sep, List.take_left' rfl,
    if_false]

theorem alnum_of_mapM_charsetRevAt {b values : List UInt8}
    (hb : b.mapM charsetRevAt = some values) : ∀ c ∈ b, isLower c ∨ isUpper c ∨ isDigit c := by
  intro c hc
  obtain ⟨w, hw⟩ : ∃ w, charsetRevAt c = some w := by
    by_contra hno
    exact not_mem_of_mapM_some hb (Option.eq_none_iff_forall_not_mem.mpr
      fun w hw => hno ⟨w, hw⟩) hc
  have := (charsetRevAt_some hw).2.1
  simpa only [Bool.or_eq_true, or_assoc] using this

/-- A string of letters, the separator and alphabet characters, not in both cases, is
accepted. -/
theorem prefixAndValues_of_chars {a b values : List UInt8} (ha0 : a ≠ [])
    (ha : ∀ c ∈ a, isLower c ∨ isUpper c) (hb : b.mapM charsetRevAt = some values)
    (hmix : ((a ++ b).any isUpper && (a ++ b).any isLower) = false) :
    prefixAndValues (a ++ ':'.toUInt8 :: b) = .ok (a.map lowerCase, values) := by
  rw [prefixAndValues_address ha0 ha (alnum_of_mapM_charsetRevAt hb), hmix, hb]
  rfl

/-- The sanity checks only ever fail with a message, never with the checksum sentinel. -/
theorem prefixAndValues_error {str : List UInt8} {e : GoError}
    (h : prefixAndValues str = .error e) : e ≠ .errChecksumMismatch := by
  have hscan : ∀ {i cs s}, scan i cs s = .error e → e ≠ .errChecksumMismatch := by
    intro i cs s hs
    induction cs generalizing i s with
    | nil => cases hs
    | cons c cs ih =>
      rw [scan] at hs
      cases hstep : scanStep i c s with
      | error e' =>
        rw [hstep] at hs
        cases hs
        unfold scanStep at hstep
        split_ifs at hstep <;> cases hstep <;> nofun
      | ok s' => rw [hstep] at hs; exact ih hs
  unfold prefixAndValues at h
  split at h
  · next e' hs => cases h; exact hscan hs
  · split_ifs at h
    · cases h; nofun
    · cases h; nofun
    · split at h <;> cases h
      nofun

theorem decodeCashAddress_of_ok {str pfx values : List UInt8}
    (h : prefixAndValues str = .ok (pfx, values)) :
    decodeCashAddress str = if verifyChecksum pfx values then
      (if values.length < 8 then none else some (.ok (pfx, values.take (values.length - 8))))
      else some (.error .errChecksumMismatch) := by
  simp only [decodeCashAddress, h]
  cases verifyChecksum pfx values <;> rfl

theorem decodeCashAddress_of_values {a b values : List UInt8} (ha0 : a ≠ [])
    (ha : ∀ c ∈ a, isLower c ∨ isUpper c) (hb : b.mapM charsetRevAt = some values)
    (hmix : ((a ++ b).any isUpper && (a ++ b).any isLower) = false)
    (hcheck : verifyChecksum (a.map lowerCase) values = true) (hlen : 8 ≤ values.length) :
    decodeCashAddress (a ++ ':'.toUInt8 :: b) =
      some (.ok (a.map lowerCase, values.take (values.length - 8))) := by
  rw [decodeCashAddress_of_ok (prefixAndValues_of_chars ha0 ha hb hmix), hcheck,
    if_pos rfl, if_neg (by omega)]

theorem colon_not_mem_letters {a : List UInt8} (ha : ∀ c ∈ a, isLower c ∨ isUpper c) :
    ':'.toUInt8 ∉ a := by
  intro hm
  have := colon_not_letter
  simp only [Bool.or_eq_false_iff] at this
  rcases ha _ hm with h | h <;> simp_all

theorem verifyChecksum_iff {pfx values : List UInt8} :
    verifyChecksum pfx values = true ↔ polyMod (expandPrefix pfx ++ values) = 0 := by
  simp [verifyChecksum]

theorem expandPrefix_map_append (pre a v : List UInt8) (x : UInt8) :
    expandPrefix ((pre ++ x :: a).map lowerCase) ++ v = (pre.map lowerCase).map (· &&& 0x1f) ++
      (lowerCase x &&& 0x1f) :: ((a.map lowerCase).map (· &&& 0x1f) ++ [0] ++ v) := by
  simp [expandPrefix]

/-- Two accepted strings with passing checksums never differ in one character up to
case. -/
theorem checksum_single_change {pre post : List UInt8} {x y : UInt8} {p v p' v' : List UInt8}
    (h : prefixAndValues (pre ++ x :: post) = .ok (p, v)) (hv : verifyChecksum p v = true)
    (h' : prefixAndValues (pre ++ y :: post) = .ok (p', v')) (hv' : verifyChecksum p' v' = true)
    (hxy : foldCase x ≠ foldCase y) : False := by
  obtain ⟨a, b, hs, -, ha, rfl, hb⟩ := prefixAndValues_ok h
  obtain ⟨a', b', hs', -, ha', rfl, hb'⟩ := prefixAndValues_ok h'
  have hca := colon_not_mem_letters ha
  have hca' := colon_not_mem_letters ha'
  have hcb := not_mem_of_mapM_some hb charsetRevAt_colon
  have hcb' := not_mem_of_mapM_some hb' charsetRevAt_colon
  rw [verifyChecksum_iff] at hv hv'
  have hsep (hx : x = ':'.toUInt8) (hpre : pre = a) (hpost : post = b) : False := by
    subst hx hpre hpost
    have hy : y ≠ ':'.toUInt8 := by rintro rfl; exact hxy rfl
    have hm : ':'.toUInt8 ∈ pre ++ y :: post := hs' ▸ List.mem_append_right _ (List.mem_cons_self _ _)
    simp only [List.mem_append, List.mem_cons] at hm
    rcases hm with hm | hm | hm
    · exact hca hm
    · exact hy hm.symm
    · exact hcb hm
  rcases List.append_eq_append_iff.mp hs with ⟨_ | ⟨z, a₂⟩, rfl, hx⟩ | ⟨_ | ⟨z, c₂⟩, rfl, hx⟩
  · -- the separator itself
    obtain ⟨rfl, rfl⟩ := List.cons.inj hx
    exact hsep rfl (List.append_nil pre).symm rfl
  · -- a letter of the prefix
    obtain ⟨rfl, rfl⟩ := List.cons.inj hx
    simp only [List.append_eq] at hs'
    by_cases hy : y = ':'.toUInt8
    · subst hy
      obtain ⟨-, rfl⟩ := append_cons_inj
        (fun hm => hca (List.mem_append_left _ hm)) hca' hs'
      exact hcb' (List.mem_append_right _ (List.mem_cons_self _ _))
    · have hpre : ':'.toUInt8 ∉ pre ++ y :: a₂ := by
        intro hm
        simp only [List.mem_append, List.mem_cons] at hm
        rcases hm with hm | hm | hm
        · exact hca (List.mem_append_left _ hm)
        · exact hy hm.symm
        · exact hca (List.mem_append_right _ (List.mem_cons_of_mem _ hm))
      rw [← List.cons_append, ← List.append_assoc] at hs'
      obtain ⟨rfl, rfl⟩ := append_cons_inj hpre hca' hs'
      obtain rfl : v = v' := Option.some.inj (hb.symm.trans hb')
      have hlx := lowerCase_letter x.toNat (toNat_lt_256 x)
        (by simpa using ha x (by simp))
      have hly := lowerCase_letter y.toNat (toNat_lt_256 y)
        (by simpa using ha' y (by simp))
      simp only [toUInt8_toNat] at hlx hly
      have hne : lowerCase x &&& 0x1f ≠ lowerCase y &&& 0x1f := by
        intro heq; exact hxy (by rw [hlx.2, hly.2, heq])
      apply Bchutil.polyMod_ne_of_ne ((pre.map lowerCase).map (· &&& 0x1f))
        ((a₂.map lowerCase).map (· &&& 0x1f) ++ [0] ++ v) hne
      rw [← expandPrefix_map_append, ← expandPrefix_map_append, hv, hv']
  · -- the separator, seen from the other side
    obtain ⟨rfl, rfl⟩ := List.cons.inj hx
    exact hsep rfl (List.append_nil a) rfl
  · -- a data character
    obtain ⟨rfl, rfl⟩ := List.cons.inj hx
    rw [List.append_assoc, List.cons_append] at hs'
    obtain ⟨rfl, rfl⟩ := append_cons_inj hca hca' hs'
    obtain ⟨u, wz, hu, hwz, rfl⟩ := mapM_append_some hb
    obtain ⟨w, z, hw, hz, rfl⟩ := mapM_cons_some hwz
    obtain ⟨u', wz', hu', hwz', rfl⟩ := mapM_append_some hb'
    obtain ⟨w', z', hw', hz', rfl⟩ := mapM_cons_some hwz'
    obtain rfl : u = u' := Option.some.inj (hu.symm.trans hu')
    obtain rfl : z = z' := Option.some.inj (hz.symm.trans hz')
    have hne : w ≠ w' := by
      rintro rfl
      exact hxy ((charsetRevAt_some hw).2.2.trans (charsetRevAt_some hw').2.2.symm)
    apply Bchutil.polyMod_ne_of_ne (expandPrefix (a.map lowerCase) ++ u) z hne
    rw [List.append_assoc, hv, List.append_assoc, hv']

/-- The checksum catches every single-character error: changing one character of an
accepted address to one that is not the same up to case is an error, the checksum
mismatch exactly when the changed string passes the format checks. -/
theorem decodeCashAddress_single_change {pre post : List UInt8} {x y : UInt8}
    {r : List UInt8 × List UInt8} (hs : decodeCashAddress (pre ++ x :: post) = some (.ok r))
    (hxy : foldCase x ≠ foldCase y) :
    ∃ e, decodeCashAddress (pre ++ y :: post) = some (.error e) ∧
      (e = .errChecksumMismatch ↔ (prefixAndValues (pre ++ y :: post)).isOk = true) := by
  obtain ⟨p, v, h, hv⟩ : ∃ p v, prefixAndValues (pre ++ x :: post) = .ok (p, v) ∧
      verifyChecksum p v = true := by
    cases hpv : prefixAndValues (pre ++ x :: post) with
    | error e => simp [decodeCashAddress, hpv] at hs
    | ok pv =>
      rw [decodeCashAddress_of_ok hpv] at hs
      refine ⟨pv.1, pv.2, rfl, ?_⟩
      by_contra hne
      simp [hne] at hs
  cases hpv' : prefixAndValues (pre ++ y :: post) with
  | error e =>
    exact ⟨e, by simp [decodeCashAddress, hpv'],
      by simp [prefixAndValues_error hpv', Except.isOk, Except.toBool]⟩
  | ok pv' =>
    cases hv' : verifyChecksum pv'.1 pv'.2
    · refine ⟨.errChecksumMismatch, ?_, by simp [Except.isOk, Except.toBool]⟩
      rw [decodeCashAddress_of_ok hpv', hv']
      rfl
    · exact (checksum_single_change h hv hpv' hv' hxy).elim

set_option maxRecDepth 10000 in
/-- The spec's address `qpcenuhjnwk0xw4st4x0pyn69vmra29nnvghrpm8jg` under its prefix, with
the last character changed. -/
theorem decodeCashAddress_spec_address_changed : ∃ e, decodeCashAddress
    (ascii "bitcoincash:qpcenuhjnwk0xw4st4x0pyn69vmra29nnvghrpm8j" ++ 'q'.toUInt8 :: []) =
      some (.error e) ∧ (e = .errChecksumMismatch ↔ (prefixAndValues
        (ascii "bitcoincash:qpcenuhjnwk0xw4st4x0pyn69vmra29nnvghrpm8j" ++ 'q'.toUInt8 :: [])).isOk =
          true) :=
  decodeCashAddress_single_change (x := 'g'.toUInt8) rfl (by decide)

/-- `lowerCase` sets bit 5, which `expandPrefix` masks off. -/
theorem lowerCase_and_mask : ∀ c : UInt8, lowerCase c &&& 0x1f = c &&& 0x1f :=
  forall_byte (by set_option maxRecDepth 4000 in decide)

theorem expandPrefix_map_lowerCase (p : List UInt8) :
    expandPrefix (p.map lowerCase) = expandPrefix p := by
  simp only [expandPrefix, List.map_map, Function.comp_def, lowerCase_and_mask]

/-- bch.go's checksum verifies under bchutil's copies, under the prefix and under the
lowercase image `DecodeCashAddress` passes, whatever bytes the payload holds. -/
theorem verifyChecksum_createChecksum (p v : List UInt8) :
    verifyChecksum p (v ++ createChecksum p v) = true ∧
      verifyChecksum (p.map lowerCase) (v ++ createChecksum p v) = true := by
  have h := polyMod_createChecksum p v
  simp only [AddressUtil.polyMod, AddressUtil.expandPrefix, List.append_assoc] at h
  rw [verifyChecksum_iff, verifyChecksum_iff, expandPrefix_map_lowerCase, and_self]
  exact h

theorem case_bytes : ∀ n < 256, isLower (upperCase n.toUInt8) = false ∧
    (isLower n.toUInt8 = true → lowerCase n.toUInt8 = n.toUInt8 ∧
      lowerCase (upperCase n.toUInt8) = n.toUInt8 ∧ isUpper (upperCase n.toUInt8) = true) := by
  set_option maxRecDepth 4000 in decide

theorem mapM_charsetRevAt_spell {xs : List UInt8} (hxs : ∀ c ∈ xs, c.toNat < 32) :
    (xs.map fun c => bchBase32Encoder.getD c.toNat 0).mapM charsetRevAt = some xs ∧
      (xs.map fun c => upperCase (bchBase32Encoder.getD c.toNat 0)).mapM charsetRevAt =
        some xs := by
  induction xs with
  | nil => exact ⟨rfl, rfl⟩
  | cons c xs ih =>
    have hc := hxs c (List.mem_cons_self _ _)
    obtain ⟨ih₁, ih₂⟩ := ih fun d hd => hxs d (List.mem_cons_of_mem _ hd)
    simp only [List.map_cons, List.mapM_cons, ih₁, ih₂, charsetRevAt_encoder _ hc,
      charsetRevAt_encoder_upper _ hc, toUInt8_toNat]
    exact ⟨rfl, rfl⟩

theorem lowerCase_of_isLower {c : UInt8} (h : isLower c = true) : lowerCase c = c := by
  have := case_bytes c.toNat (toNat_lt_256 c)
  simp only [toUInt8_toNat] at this
  exact (this.2 h).1

theorem mem_bchBase32Encoder : ∀ c ∈ bchBase32Encoder,
    (charsetRevAt c).isSome = true ∧ isUpper c = false := by
  decide

theorem getD_mem_bchBase32Encoder {n : Nat} (hn : n < 32) :
    bchBase32Encoder.getD n 0 ∈ bchBase32Encoder := by
  rw [List.getD_eq_getElem?_getD, List.getElem?_eq_getElem (by rwa [length_bchBase32Encoder]),
    Option.getD_some]
  exact List.getElem_mem _

/-- A lowercase prefix, the separator and characters of `bchBase32Encoder` pass the checks
before the checksum. -/
theorem prefixAndValues_of_encoder {p s values : List UInt8} (hp : p ≠ [])
    (hlow : ∀ c ∈ p, isLower c = true) (hs : ∀ c ∈ s, c ∈ bchBase32Encoder)
    (hm : s.mapM charsetRevAt = some values) :
    prefixAndValues (p ++ ':'.toUInt8 :: s) = .ok (p, values) := by
  have hnoup : ∀ c ∈ p ++ s, isUpper c = false := by
    intro c hc
    rcases List.mem_append.mp hc with hc | hc
    · simpa [hlow c hc] using (byte_classes c).1
    · exact (mem_bchBase32Encoder c (hs c hc)).2
  have hmix : (p ++ s).any isUpper = false := List.any_eq_false.mpr fun c hc => by simp [hnoup c hc]
  rw [prefixAndValues_of_chars hp (fun c hc => .inl (hlow c hc)) hm (by rw [hmix, Bool.false_and]),
    List.map_congr_left fun c hc => lowerCase_of_isLower (hlow c hc), List.map_id']

/-- Symbols spelled in `bchBase32Encoder` after a lowercase prefix pass the checks before
the checksum. -/
theorem prefixAndValues_spell {p values : List UInt8} (hp : p ≠ [])
    (hlow : ∀ c ∈ p, isLower c = true) (hv : ∀ c ∈ values, c.toNat < 32) :
    prefixAndValues (p ++ ':'.toUInt8 :: values.map fun c => bchBase32Encoder.getD c.toNat 0) =
      .ok (p, values) :=
  prefixAndValues_of_encoder hp hlow (fun _ hc => (List.mem_map.mp hc).elim fun d hd =>
    hd.2 ▸ getD_mem_bchBase32Encoder (hv d hd.1)) (mapM_charsetRevAt_spell hv).1

/-- An encoding under a lowercase prefix decodes to its payload, in lowercase and in
uppercase. -/
theorem decodeCashAddress_encode {p payload : List UInt8} (hp : p ≠ [])
    (hlow : ∀ c ∈ p, isLower c = true) (hpl : ∀ c ∈ payload, c.toNat < 32) :
    ∃ enc, AddressUtil.encode p payload = some enc ∧ (∀ c ∈ enc, isUpper c = false) ∧
      decodeCashAddress (p ++ ':'.toUInt8 :: enc) = some (.ok (p, payload)) ∧
      decodeCashAddress ((p ++ ':'.toUInt8 :: enc).map upperCase) = some (.ok (p, payload)) := by
  set values := payload ++ createChecksum p payload
  have hvals : ∀ c ∈ values, c.toNat < 32 := by
    simpa only [values, List.mem_append, or_imp, forall_and] using ⟨hpl, createChecksum_lt p payload⟩
  have hdecU := (mapM_charsetRevAt_spell hvals).2
  have hcase (c : UInt8) := case_bytes c.toNat (toNat_lt_256 c)
  simp only [toUInt8_toNat] at hcase
  have hcheck : verifyChecksum p values = true := by
    rw [verifyChecksum_iff, ← List.append_assoc]
    exact polyMod_createChecksum p payload
  have hlen : 8 ≤ values.length := by simp [values]
  have htake : values.take (values.length - 8) = payload := by simp [values]
  refine ⟨_, encode_eq p hpl, ?_, ?_, ?_⟩
  · simp only [List.mem_map]
    rintro _ ⟨c, hc, rfl⟩
    exact (mem_bchBase32Encoder _ (getD_mem_bchBase32Encoder (hvals c hc))).2
  · rw [decodeCashAddress_of_ok (prefixAndValues_spell hp hlow hvals), hcheck, if_pos rfl,
      if_neg (by omega), htake]
  · have hsep : upperCase ':'.toUInt8 = ':'.toUInt8 := by decide
    rw [List.map_append, List.map_cons, hsep, List.map_map]
    have hmix : ((p.map upperCase ++ values.map (upperCase ∘ fun c =>
        bchBase32Encoder.getD c.toNat 0)).any isUpper && (p.map upperCase ++
        values.map (upperCase ∘ fun c => bchBase32Encoder.getD c.toNat 0)).any isLower) =
          false := by
      simp only [Bool.and_eq_false_iff, List.any_eq_false, List.mem_append, List.mem_map]
      right
      rintro _ (⟨c, -, rfl⟩ | ⟨c, -, rfl⟩) <;> simp [(hcase _).1]
    have hlow' : (p.map upperCase).map lowerCase = p := by
      rw [List.map_map]
      conv_rhs => rw [← List.map_id p]
      exact List.map_congr_left fun c hc => ((hcase c).2 (hlow c hc)).2.1
    have := decodeCashAddress_of_values (a := p.map upperCase) (by simpa using hp)
      (by simp only [List.mem_map]; rintro _ ⟨c, hc, rfl⟩; exact .inr ((hcase c).2 (hlow c hc)).2.2)
      hdecU hmix (by rwa [hlow']) hlen
    rwa [hlow', htake] at this

/-- Under a lowercase prefix, `encode` spells different payloads differently. -/
theorem encode_inj {p x y enc : List UInt8} (hp : p ≠ []) (hlow : ∀ c ∈ p, isLower c = true)
    (hx : ∀ c ∈ x, c.toNat < 32) (hy : ∀ c ∈ y, c.toNat < 32)
    (hex : AddressUtil.encode p x = some enc) (hey : AddressUtil.encode p y = some enc) : x = y := by
  obtain ⟨ex, hex', -, hdx, -⟩ := decodeCashAddress_encode hp hlow hx
  obtain ⟨ey, hey', -, hdy, -⟩ := decodeCashAddress_encode hp hlow hy
  rw [hex, Option.some.injEq] at hex'
  rw [hey, Option.some.injEq] at hey'
  subst hex' hey'
  rw [hdx, Option.some.injEq, Except.ok.injEq, Prod.mk.injEq] at hdy
  exact hdy.2

theorem checkDecodeCashAddress_of_decode {x p data out : List UInt8}
    (h : decodeCashAddress x = some (.ok (p, data))) (hc : convertBits data 5 8 false = .ok out)
    (hl : out.length = 21) :
    checkDecodeCashAddress x = some (.ok ((out.drop 1).take 20, p,
      if out.headD 0 = 0x08 then addrTypePayToScriptHash else addrTypePayToPubKeyHash)) := by
  simp only [checkDecodeCashAddress, h, Option.map_some', hc, hl, ne_eq, not_true_eq_false,
    if_false]
  by_cases h0 : out.headD 0 = 0x00
  · rw [if_pos h0, if_neg (by rw [h0]; decide)]
  · rw [if_neg h0]

/-- A 20-byte hash behind any version byte, packed and spelled under a lowercase prefix,
decodes back to the hash, in lowercase and in uppercase; the type is P2SH only for `0x08`. -/
theorem checkDecodeCashAddress_encode {p : List UInt8} (hp : p ≠ [])
    (hlow : ∀ c ∈ p, isLower c = true) (v : UInt8) {h : List UInt8} (hh : h.length = 20) :
    ∃ groups enc, convertBits (v :: h) 8 5 true = .ok groups ∧
      AddressUtil.encode p groups = some enc ∧ (∀ c ∈ enc, isUpper c = false) ∧
      checkDecodeCashAddress (p ++ ':'.toUInt8 :: enc) =
        some (.ok (h, p, if v = 0x08 then addrTypePayToScriptHash else addrTypePayToPubKeyHash)) ∧
      checkDecodeCashAddress ((p ++ ':'.toUInt8 :: enc).map upperCase) =
        some (.ok (h, p, if v = 0x08 then addrTypePayToScriptHash else addrTypePayToPubKeyHash)) := by
  obtain ⟨gs, hpack, hlt, hunpack⟩ := convertBits_pack_unpack (v :: h)
  obtain ⟨enc, henc, hup, hdec, hdecU⟩ := decodeCashAddress_encode hp hlow hlt
  have hout := checkDecodeCashAddress_of_decode hdec hunpack (by simp [hh])
  have houtU := checkDecodeCashAddress_of_decode hdecU hunpack (by simp [hh])
  simp only [List.headD_cons, List.drop_one, List.tail_cons,
    List.take_of_length_le (le_of_eq hh)] at hout houtU
  exact ⟨gs, enc, hpack, henc, hup, hout, houtU⟩

/-- bch.go's encoder and bchutil's decoder are inverse: for every lowercase prefix, both
address types and every 20-byte hash. -/
theorem checkDecodeCashAddress_checkEncodeCashAddress {p : List UInt8} (hp : p ≠ [])
    (hlow : ∀ c ∈ p, isLower c = true) {t : Int}
    (ht : t = AddressUtil.addrTypePayToPubKeyHash ∨ t = AddressUtil.addrTypePayToScriptHash)
    {h : List UInt8} (hh : h.length = 20) :
    ∃ enc, checkEncodeCashAddress h p t = some enc ∧
      checkDecodeCashAddress (p ++ ascii ":" ++ enc) = some (.ok (h, p, t)) := by
  have ht' : t = 0 ∨ t = 1 := ht
  obtain ⟨gs, enc, hpack, henc, -, hdec, -⟩ :=
    checkDecodeCashAddress_encode hp hlow (t.toNat <<< 3).toUInt8 hh
  refine ⟨enc, ?_, ?_⟩
  · rw [checkEncodeCashAddress, packAddressData_eq ht' hh]
    exact (congrArg (fun r => match r with
      | .error _ => some []
      | .ok k => AddressUtil.encode p k) hpack).trans henc
  · rw [show p ++ ascii ":" ++ enc = p ++ ':'.toUInt8 :: enc by simp [ascii]; rfl, hdec]
    rcases ht' with rfl | rfl <;> rfl

theorem checkDecodeCashAddress_checkEncodeCashAddress_zero_hash :
    ∃ enc, checkEncodeCashAddress (List.replicate 20 0) (ascii "bitcoincash") 0 = some enc ∧
      checkDecodeCashAddress (ascii "bitcoincash" ++ ascii ":" ++ enc) =
        some (.ok (List.replicate 20 0, ascii "bitcoincash", 0)) :=
  checkDecodeCashAddress_checkEncodeCashAddress (by decide) (by decide) (.inl rfl) (by decide)

theorem mapM_charsetRevAt_lt {b values : List UInt8} (h : b.mapM charsetRevAt = some values) :
    ∀ d ∈ values, d.toNat < 32 := by
  induction b generalizing values with
  | nil => cases h; simp
  | cons c b ih =>
    obtain ⟨w, u, hw, hu, rfl⟩ := mapM_cons_some h
    rintro d (_ | ⟨_, hd⟩)
    · exact (charsetRevAt_some hw).1
    · exact ih hu d hd

/-- Under a lowercase prefix, an accepted string's values are those of what follows the
separator, and the prefix comes back unchanged. -/
theorem prefixAndValues_of_lowercase {pre rest p values : List UInt8}
    (hpre : ∀ c ∈ pre, isLower c = true) (h : prefixAndValues (pre ++ ':'.toUInt8 :: rest) =
      .ok (p, values)) : p = pre ∧ rest.mapM charsetRevAt = some values := by
  obtain ⟨a, b, hs, -, ha, rfl, hb⟩ := prefixAndValues_ok h
  obtain ⟨rfl, rfl⟩ := append_cons_inj (colon_not_mem_letters fun c hc => .inl (hpre c hc))
    (colon_not_mem_letters ha) hs
  refine ⟨?_, hb⟩
  conv_rhs => rw [← List.map_id' pre]
  exact List.map_congr_left fun c hc => lowerCase_of_isLower (hpre c hc)

/-- Under a lowercase prefix, letters and digits with a character off the alphabet fail the
checks before the checksum: in both cases, or as an invalid character. -/
theorem prefixAndValues_off_alphabet {a b : List UInt8} (ha0 : a ≠ [])
    (ha : ∀ c ∈ a, isLower c = true) (hb : ∀ c ∈ b, isLower c ∨ isUpper c ∨ isDigit c)
    (hc : ∃ c ∈ b, c ∉ bchBase32Encoder) : ∃ e, prefixAndValues (a ++ ':'.toUInt8 :: b) = .error e := by
  rw [prefixAndValues_address ha0 (fun c h => .inl (ha c h)) hb]
  split_ifs with hmix
  · exact ⟨_, rfl⟩
  cases hm : b.mapM charsetRevAt with
  | none => exact ⟨_, rfl⟩
  | some values =>
    obtain ⟨c, hcb, hcE⟩ := hc
    have hl : (a ++ b).any isLower = true :=
      List.any_eq_true.mpr ⟨_, List.mem_append_left _ (List.head_mem ha0), ha _ (List.head_mem ha0)⟩
    rw [hl, Bool.and_true, Bool.not_eq_true, List.any_eq_false] at hmix
    have hup : isUpper c = false := by simpa using hmix c (List.mem_append_right _ hcb)
    obtain ⟨w, hw⟩ := exists_of_mapM_some hm hcb
    obtain ⟨hw32, -, hfold⟩ := charsetRevAt_some hw
    refine absurd ?_ hcE
    rw [show c = foldCase c by simp [foldCase, hup], hfold, List.getD_eq_getElem?_getD,
      List.getElem?_eq_getElem (by rw [length_bchBase32Encoder]; exact hw32), Option.getD_some]
    exact List.getElem_mem _

/-- Under a prefix for which no short data part verifies, decoding never reaches the
slice that would panic. -/
theorem decodeCashAddress_isSome {pre : List UInt8} (hpre : ∀ c ∈ pre, isLower c = true)
    (hsafe : shortSafe pre = true) (rest : List UInt8) :
    (decodeCashAddress (pre ++ ':'.toUInt8 :: rest)).isSome := by
  cases hpv : prefixAndValues (pre ++ ':'.toUInt8 :: rest) with
  | error e => simp [decodeCashAddress, hpv]
  | ok pv =>
    obtain ⟨rfl, hv⟩ := prefixAndValues_of_lowercase hpre hpv
    rw [decodeCashAddress_of_ok hpv]
    by_cases hlen : pv.2.length < 8
    · rw [verifyChecksum_of_shortSafe hsafe hlen (mapM_charsetRevAt_lt hv)]
      rfl
    · split_ifs <;> rfl

/-- A prefix that is not short-safe admits a data part of fewer than eight symbols whose
checksum verifies: the base-32 digits of the state the prefix and that many zeros leave,
xored with one. -/
theorem exists_short_verifyChecksum {pre : List UInt8} (hsafe : shortSafe pre = false) :
    ∃ values : List UInt8, values.length < 8 ∧ (∀ d ∈ values, d.toNat < 32) ∧
      verifyChecksum pre values = true := by
  simp only [shortSafe, List.all_eq_false, List.mem_range, decide_eq_true_eq, not_le,
    List.foldl_append] at hsafe
  obtain ⟨k, hk, hlt⟩ := hsafe
  set z := (List.replicate k 0).foldl polyModStep ((expandPrefix pre).foldl polyModStep 1)
  set ds := (List.range k).reverse.map fun i => (z ^^^ 1) / 32 ^ i % 32
  have hds : ∀ n ∈ ds, n < 32 := by
    simp only [ds, List.mem_map]
    rintro _ ⟨i, -, rfl⟩
    exact Nat.mod_lt _ (by norm_num)
  have hback := map_toNat_map_toUInt8 fun n hn => Nat.lt_trans (hds n hn) (by norm_num)
  have hlt32 : ∀ d ∈ ds.map Nat.toUInt8, d.toNat < 32 :=
    fun d hd => hds _ (hback ▸ List.mem_map_of_mem _ hd)
  have hlen : (ds.map Nat.toUInt8).length = k := by simp [ds]
  have hval : beValue 32 ds = z ^^^ 1 :=
    (beValue_low_digits _ k).trans (Nat.mod_eq_of_lt (by rwa [Nat.pow_mul] at hlt))
  refine ⟨ds.map Nat.toUInt8, hlen ▸ hk, hlt32, ?_⟩
  have hrun := foldl_polyModStep_xor ((expandPrefix pre).foldl polyModStep 1) (x := 0)
    (by omega) (Nat.two_pow_pos _) hlt32
  rw [Nat.xor_zero, Nat.zero_mul, Nat.zero_add, hback, hlen, hval] at hrun
  rw [verifyChecksum_iff, polyMod, List.foldl_append, hrun, ← Nat.xor_assoc, Nat.xor_self,
    Nat.zero_xor, Nat.xor_self]

/-- Under a lowercase prefix, `DecodeCashAddress` panics on some data part of fewer than
eight alphabet characters exactly when the prefix is not short-safe: that data part passes
the checksum, and `values[:len(values)-8]` has a negative bound. -/
theorem decodeCashAddress_short_panic {pre : List UInt8} (hpre0 : pre ≠ [])
    (hpre : ∀ c ∈ pre, isLower c = true) :
    (∃ rest, rest.length < 8 ∧ (∀ c ∈ rest, c ∈ bchBase32Encoder) ∧
      decodeCashAddress (pre ++ ':'.toUInt8 :: rest) = none) ↔ shortSafe pre = false := by
  constructor
  · rintro ⟨rest, -, -, hnone⟩
    by_contra hsafe
    simpa [hnone] using decodeCashAddress_isSome hpre (by simpa using hsafe) rest
  · intro hsafe
    obtain ⟨values, hlen, hlt, hv⟩ := exists_short_verifyChecksum hsafe
    refine ⟨values.map fun c => bchBase32Encoder.getD c.toNat 0, by simpa using hlen, ?_, ?_⟩
    · intro c hc
      obtain ⟨d, hd, rfl⟩ := List.mem_map.mp hc
      exact getD_mem_bchBase32Encoder (hlt d hd)
    · rw [decodeCashAddress_of_ok (prefixAndValues_spell hpre0 hpre hlt), hv, if_pos rfl,
        if_pos hlen]

theorem decodeCashAddress_short_panic_c : shortSafe (ascii "c") = false ∧
    ∃ rest, rest.length < 8 ∧ (∀ c ∈ rest, c ∈ bchBase32Encoder) ∧
      decodeCashAddress (ascii "c" ++ ':'.toUInt8 :: rest) = none :=
  ⟨by decide, (decodeCashAddress_short_panic (by decide) (by decide)).mpr (by decide)⟩

example : decodeCashAddress (ascii "c:qvdy2z3") = none := rfl

/-- A data part under a lowercase prefix whose checksum verifies but which is too short for a
20-byte hash fails after the checksum, never with the checksum sentinel. -/
theorem checkDecodeCashAddress_short {pre rest values : List UInt8}
    (hpre : ∀ c ∈ pre, isLower c = true) (hm : rest.mapM charsetRevAt = some values)
    (hv : verifyChecksum pre values = true) (hlen : 8 ≤ rest.length ∧ rest.length ≤ 41) :
    ∃ e, checkDecodeCashAddress (pre ++ ':'.toUInt8 :: rest) = some (.error e) ∧
      e ≠ .errChecksumMismatch := by
  cases hpv : prefixAndValues (pre ++ ':'.toUInt8 :: rest) with
  | error e =>
    exact ⟨e, by simp [checkDecodeCashAddress, decodeCashAddress, hpv], prefixAndValues_error hpv⟩
  | ok pv =>
    obtain ⟨p, vals⟩ := pv
    obtain ⟨rfl, hvals⟩ := prefixAndValues_of_lowercase hpre hpv
    rw [hm, Option.some.injEq] at hvals
    subst hvals
    have hl := length_of_mapM_some hm
    rw [checkDecodeCashAddress, decodeCashAddress_of_ok hpv, hv, if_pos rfl, if_neg (by omega),
      Option.map_some']
    dsimp only
    cases hc : convertBits (values.take (values.length - 8)) 5 8 false with
    | error e =>
      refine ⟨e, rfl, ?_⟩
      simp only [convertBits] at hc
      split_ifs at hc <;> cases hc <;> nofun
    | ok out =>
      have hbits := length_convertBits_unpad (f := 5) (t := 8) (by norm_num)
        (fun c hc => mapM_charsetRevAt_lt hm c (List.mem_of_mem_take hc)) hc
      simp only [List.length_take] at hbits
      have h21 : out.length ≠ 21 := by omega
      exact ⟨.new "incorrect data length", by simp [h21], nofun⟩

/-- What a successful cash decode of a 20-byte hash read: 42 values whose checksum
verifies. -/
theorem checkDecodeCashAddress_ok {x decoded p : List UInt8} {t : Int}
    (h : checkDecodeCashAddress x = some (.ok (decoded, p, t))) :
    ∃ values, prefixAndValues x = .ok (p, values) ∧ verifyChecksum p values = true ∧
      values.length = 42 ∧ decoded.length = 20 := by
  simp only [checkDecodeCashAddress] at h
  cases hd : decodeCashAddress x with
  | none => rw [hd] at h; cases h
  | some r =>
    rw [hd, Option.map_some', Option.some.injEq] at h
    rcases r with e | ⟨p', data⟩
    · cases h
    · dsimp only at h
      cases hc : convertBits data 5 8 false with
      | error e => rw [hc] at h; cases h
      | ok out =>
        rw [hc] at h
        dsimp only at h
        by_cases hl : out.length = 21
        swap
        · rw [if_pos hl] at h; cases h
        rw [if_neg (not_not.mpr hl), Except.ok.injEq, Prod.mk.injEq, Prod.mk.injEq] at h
        obtain ⟨rfl, rfl, -⟩ := h
        cases hpv : prefixAndValues x with
        | error e => simp [decodeCashAddress, hpv] at hd
        | ok pv =>
          rw [decodeCashAddress_of_ok hpv] at hd
          split_ifs at hd with hv hlen <;> cases hd
          obtain ⟨_, _, -, -, -, -, hb⟩ := prefixAndValues_ok hpv
          have hbits := length_convertBits_unpad (f := 5) (t := 8) (by norm_num)
            (fun c hc => mapM_charsetRevAt_lt hb c (List.mem_of_mem_take hc)) hc
          simp only [List.length_take, hl] at hbits
          refine ⟨pv.2, rfl, hv, by omega, ?_⟩
          simp [hl]

theorem lowerCase_eq_foldCase {c : UInt8} (h : isLower c ∨ isUpper c) :
    lowerCase c = foldCase c := by
  simpa using (lowerCase_letter c.toNat (toNat_lt_256 c) (by simpa using h)).1

/-- Data characters with values are, up to case, the alphabet's spelling of the values. -/
theorem map_foldCase_of_mapM {b values : List UInt8} (h : b.mapM charsetRevAt = some values) :
    b.map foldCase = values.map fun v => bchBase32Encoder.getD v.toNat 0 := by
  induction b generalizing values with
  | nil => cases h; rfl
  | cons c b ih =>
    obtain ⟨w, u, hw, hu, rfl⟩ := mapM_cons_some h
    rw [List.map_cons, List.map_cons, (charsetRevAt_some hw).2.2, ih hu]

/-- What a successful decode read: values whose checksum verifies, of which the payload is
all but the last eight. -/
theorem decodeCashAddress_ok_values {str p payload : List UInt8}
    (h : decodeCashAddress str = some (.ok (p, payload))) :
    ∃ values, prefixAndValues str = .ok (p, values) ∧ verifyChecksum p values = true ∧
      8 ≤ values.length ∧ payload = values.take (values.length - 8) := by
  cases hpv : prefixAndValues str with
  | error e => simp [decodeCashAddress, hpv] at h
  | ok pv =>
    rw [decodeCashAddress_of_ok hpv] at h
    split_ifs at h with hv hlen <;> cases h
    exact ⟨pv.2, rfl, hv, by omega, rfl⟩

/-- Decoding is canonical: a string `DecodeCashAddress` accepts is, up to case, its prefix,
the separator and `encode`'s spelling of its payload. -/
theorem decodeCashAddress_canonical {str p payload : List UInt8}
    (h : decodeCashAddress str = some (.ok (p, payload))) :
    ∃ enc, AddressUtil.encode p payload = some enc ∧
      str.map foldCase = p ++ ':'.toUInt8 :: enc := by
  obtain ⟨values, hpv, hv, hlen, rfl⟩ := decodeCashAddress_ok_values h
  obtain ⟨a, b, rfl, -, ha, rfl, hb⟩ := prefixAndValues_ok hpv
  have hlt := mapM_charsetRevAt_lt hb
  have hsplit := (List.take_append_drop (values.length - 8) values).symm
  have hcs : values.drop (values.length - 8) =
      createChecksum (a.map lowerCase) (values.take (values.length - 8)) :=
    eq_createChecksum (by simp; omega) (fun c hc => hlt c (List.mem_of_mem_drop hc))
      (by rw [List.append_assoc, ← hsplit]; exact verifyChecksum_iff.mp hv)
  have hsep : foldCase ':'.toUInt8 = ':'.toUInt8 := by decide
  refine ⟨_, encode_eq _ fun c hc => hlt c (List.mem_of_mem_take hc), ?_⟩
  rw [← hcs, ← hsplit, List.map_append, List.map_cons, map_foldCase_of_mapM hb, hsep,
    List.map_congr_left fun c hc => (lowerCase_eq_foldCase (ha c hc)).symm]

theorem isLower_lowerCase {c : UInt8} (h : isLower c ∨ isUpper c) :
    isLower (lowerCase c) = true := by
  refine forall_byte (P := fun c => (isLower c || isUpper c) = true →
    isLower (lowerCase c) = true) ?_ c (by simpa using h)
  set_option maxRecDepth 4000 in decide

theorem upperCase_foldCase {c : UInt8} (h : isLower c = false) : upperCase (foldCase c) = c := by
  refine forall_byte (P := fun c => isLower c = false → upperCase (foldCase c) = c) ?_ c h
  set_option maxRecDepth 4000 in decide

theorem map_foldCase_eq_self {l : List UInt8} (h : ∀ c ∈ l, isUpper c = false) :
    l.map foldCase = l := by
  conv_rhs => rw [← List.map_id l]
  exact List.map_congr_left fun c hc => by simp [foldCase, h c hc]

/-- A string the checks before the checksum accept is in one case. -/
theorem prefixAndValues_one_case {str p values : List UInt8}
    (h : prefixAndValues str = .ok (p, values)) :
    (∀ c ∈ str, isUpper c = false) ∨ ∀ c ∈ str, isLower c = false := by
  obtain ⟨a, b, rfl, ha0, ha, -, hb⟩ := prefixAndValues_ok h
  rw [prefixAndValues_address ha0 ha (alnum_of_mapM_charsetRevAt hb)] at h
  split_ifs at h with hmix
  rw [Bool.not_eq_true, Bool.and_eq_false_iff, List.any_eq_false, List.any_eq_false] at hmix
  have hmem : ∀ c ∈ a ++ ':'.toUInt8 :: b, c = ':'.toUInt8 ∨ c ∈ a ++ b := by
    simp only [List.mem_append, List.mem_cons]; tauto
  refine hmix.imp (fun hu c hc => ?_) (fun hl c hc => ?_) <;> rcases hmem c hc with rfl | hc
  · decide
  · simpa using hu c hc
  · decide
  · simpa using hl c hc

/-- The strings `DecodeCashAddress` accepts, and what it returns on them: exactly the
encodings of a payload under a nonempty lowercase prefix, all in lowercase or all in
uppercase. -/
theorem decodeCashAddress_ok_iff {str p payload : List UInt8} :
    decodeCashAddress str = some (.ok (p, payload)) ↔
      p ≠ [] ∧ (∀ c ∈ p, isLower c = true) ∧ ∃ enc, AddressUtil.encode p payload = some enc ∧
        (str = p ++ ':'.toUInt8 :: enc ∨ str = (p ++ ':'.toUInt8 :: enc).map upperCase) := by
  constructor
  · intro h
    obtain ⟨values, hpv, -, -, -⟩ := decodeCashAddress_ok_values h
    obtain ⟨a, b, -, ha0, ha, rfl, -⟩ := prefixAndValues_ok hpv
    obtain ⟨enc, henc, hmap⟩ := decodeCashAddress_canonical h
    refine ⟨by simpa using ha0, ?_, enc, henc, ?_⟩
    · simp only [List.mem_map]
      rintro _ ⟨c, hc, rfl⟩
      exact isLower_lowerCase (ha c hc)
    rw [← hmap]
    rcases prefixAndValues_one_case hpv with hu | hl
    · exact .inl (map_foldCase_eq_self hu).symm
    · right
      conv_lhs => rw [← List.map_id str]
      rw [List.map_map]
      exact List.map_congr_left fun c hc => (upperCase_foldCase (hl c hc)).symm
  · rintro ⟨hp, hlow, enc, henc, hstr⟩
    obtain ⟨enc', henc', -, hdec, hdecU⟩ := decodeCashAddress_encode hp hlow (encode_lt henc)
    rw [henc, Option.some.injEq] at henc'
    subst henc'
    rcases hstr with rfl | rfl
    exacts [hdec, hdecU]

/-- What a success of `checkDecodeCashAddress` went through. -/
theorem checkDecodeCashAddress_ok_out {x h p : List UInt8} {t : Int}
    (hx : checkDecodeCashAddress x = some (.ok (h, p, t))) :
    ∃ data out, decodeCashAddress x = some (.ok (p, data)) ∧
      convertBits data 5 8 false = .ok out ∧ out.length = 21 ∧ h = (out.drop 1).take 20 ∧
      t = if out.headD 0 = 0x08 then addrTypePayToScriptHash else addrTypePayToPubKeyHash := by
  cases hd : decodeCashAddress x with
  | none => simp [checkDecodeCashAddress, hd] at hx
  | some r =>
    rcases r with e | ⟨p', data⟩
    · simp [checkDecodeCashAddress, hd] at hx
    cases hc : convertBits data 5 8 false with
    | error e => simp [checkDecodeCashAddress, hd, hc] at hx
    | ok out =>
      by_cases hl : out.length = 21
      · rw [checkDecodeCashAddress_of_decode hd hc hl, Option.some.injEq, Except.ok.injEq,
          Prod.mk.injEq, Prod.mk.injEq] at hx
        obtain ⟨rfl, rfl, rfl⟩ := hx
        exact ⟨data, out, rfl, hc, hl, rfl, rfl⟩
      · simp [checkDecodeCashAddress, hd, hc, hl] at hx

/-- What `checkDecodeCashAddress` accepts is, up to case, the prefix, the separator and
the spelling of a version byte and the returned 20-byte hash as bch.go packs them; the type
is P2SH exactly for the version byte `0x08`. -/
theorem checkDecodeCashAddress_canonical {x h p : List UInt8} {t : Int}
    (hx : checkDecodeCashAddress x = some (.ok (h, p, t))) :
    ∃ v groups enc, h.length = 20 ∧ convertBits (v :: h) 8 5 true = .ok groups ∧
      AddressUtil.encode p groups = some enc ∧ x.map foldCase = p ++ ':'.toUInt8 :: enc ∧
      t = if v = 0x08 then addrTypePayToScriptHash else addrTypePayToPubKeyHash := by
  obtain ⟨data, out, hd, hc, hl, rfl, rfl⟩ := checkDecodeCashAddress_ok_out hx
  obtain ⟨v, rest, rfl⟩ := List.exists_cons_of_length_eq_add_one hl
  obtain ⟨values, hpv, -, -, rfl⟩ := decodeCashAddress_ok_values hd
  obtain ⟨_, b, -, -, -, -, hb⟩ := prefixAndValues_ok hpv
  have hlt : ∀ c ∈ values.take (values.length - 8), c.toNat < 32 :=
    fun c hc => mapM_charsetRevAt_lt hb c (List.mem_of_mem_take hc)
  have hrest : rest.length = 20 := by simpa using hl
  obtain ⟨enc, henc, hmap⟩ := decodeCashAddress_canonical hd
  refine ⟨v, _, enc, by simp [hrest], ?_, henc, hmap, rfl⟩
  rw [List.drop_one, List.tail_cons, List.take_of_length_le (le_of_eq hrest)]
  exact convertBits_unpack_pack hlt hc

/-- Under a nonempty lowercase prefix, an accepted string holds no uppercase letter. -/
theorem prefixAndValues_no_upper {pre rest p values : List UInt8} (hpre0 : pre ≠ [])
    (hpre : ∀ c ∈ pre, isLower c = true)
    (h : prefixAndValues (pre ++ ':'.toUInt8 :: rest) = .ok (p, values)) :
    (pre ++ ':'.toUInt8 :: rest).map foldCase = pre ++ ':'.toUInt8 :: rest := by
  rcases prefixAndValues_one_case h with hu | hl
  · exact map_foldCase_eq_self hu
  · obtain ⟨c, hc⟩ := List.exists_mem_of_ne_nil pre hpre0
    exact absurd (hl c (List.mem_append_left _ hc)) (by simp [hpre c hc])

theorem letter_symbol_ne_zero : ∀ n < 256, (isLower n.toUInt8 || isUpper n.toUInt8) = true →
    lowerCase n.toUInt8 &&& 0x1f ≠ 0 := by
  set_option maxRecDepth 4000 in decide

/-- A letter's symbol in the expanded prefix is never the separator's zero. -/
theorem symbol_ne_zero {c : UInt8} (h : isLower c ∨ isUpper c) : lowerCase c &&& 0x1f ≠ 0 := by
  simpa using letter_symbol_ne_zero c.toNat (toNat_lt_256 c) (by simpa using h)

theorem mask_lt (c : UInt8) : (c &&& 0x1f).toNat < 32 := by
  rw [UInt8.and_toNat]
  exact Nat.lt_of_le_of_lt Nat.and_le_right (by decide)

theorem symbols_lt (W : List UInt8) : ∀ d ∈ W.map (fun c => lowerCase c &&& 0x1f), d.toNat < 32 := by
  simp only [List.mem_map]
  rintro _ ⟨c, -, rfl⟩
  exact mask_lt _

/-- Letters are told apart, up to case, by their symbols in the expanded prefix. -/
theorem map_foldCase_of_letters {X : List UInt8} (hX : ∀ c ∈ X, isLower c ∨ isUpper c) :
    X.map foldCase = (X.map fun c => lowerCase c &&& 0x1f).map (· ||| 0x60) := by
  rw [List.map_map]
  exact List.map_congr_left fun c hc => by
    simpa using (lowerCase_letter c.toNat (toNat_lt_256 c) (by simpa using hX c hc)).2

/-- Where the separator's zero sits after letter symbols tells how many letters there are. -/
theorem length_eq_of_symbols {X Y u w : List UInt8} (hX : ∀ c ∈ X, isLower c ∨ isUpper c)
    (hY : ∀ c ∈ Y, isLower c ∨ isUpper c)
    (h : X.map (fun c => lowerCase c &&& 0x1f) ++ 0 :: u =
      Y.map (fun c => lowerCase c &&& 0x1f) ++ 0 :: w) : X.length = Y.length := by
  induction X generalizing Y with
  | nil =>
    cases Y with
    | nil => rfl
    | cons d Y => exact absurd (List.cons.inj h).1.symm (symbol_ne_zero (hY d (.head _)))
  | cons c X ih =>
    cases Y with
    | nil => exact absurd (List.cons.inj h).1 (symbol_ne_zero (hX c (.head _)))
    | cons d Y =>
      rw [List.length_cons, List.length_cons, ih (fun e he => hX e (.tail _ he))
        (fun e he => hY e (.tail _ he)) (List.cons.inj h).2]

theorem count_colon {a b : List UInt8} (ha : ':'.toUInt8 ∉ a) (hb : ':'.toUInt8 ∉ b) :
    (a ++ ':'.toUInt8 :: b).count ':'.toUInt8 = 1 := by
  simp [List.count_eq_zero_of_not_mem ha, List.count_eq_zero_of_not_mem hb]

theorem split_colon {l : List UInt8} (h : l.count ':'.toUInt8 = 1) :
    ∃ l₁ l₂, l = l₁ ++ ':'.toUInt8 :: l₂ ∧ ':'.toUInt8 ∉ l₁ ∧ ':'.toUInt8 ∉ l₂ := by
  obtain ⟨l₁, l₂, rfl⟩ :=
    List.append_of_mem (List.count_pos_iff.mp (show 0 < l.count ':'.toUInt8 by omega))
  simp only [List.count_append, List.count_cons_self] at h
  exact ⟨l₁, l₂, rfl, List.count_eq_zero.mp (by omega), List.count_eq_zero.mp (by omega)⟩

theorem expandPrefix_map_lowerCase_eq (l : List UInt8) :
    expandPrefix (l.map lowerCase) = l.map (fun c => lowerCase c &&& 0x1f) ++ [0] := by
  simp [expandPrefix, Function.comp_def]

/-- Two accepted strings with passing checksums never differ, up to case, in a burst of at
most eight characters. The burst may cover prefix letters, the separator and data: outside
it both strings read the same symbols, and inside it they read different ones. -/
theorem checksum_burst {P Q X Y p v p' v' : List UInt8}
    (h : prefixAndValues (P ++ X ++ Q) = .ok (p, v)) (hv : verifyChecksum p v = true)
    (h' : prefixAndValues (P ++ Y ++ Q) = .ok (p', v')) (hv' : verifyChecksum p' v' = true)
    (hlen : X.length = Y.length) (h8 : X.length ≤ 8) (hXY : X.map foldCase ≠ Y.map foldCase) :
    False := by
  obtain ⟨a, b, hs, -, ha, rfl, hb⟩ := prefixAndValues_ok h
  obtain ⟨a', b', hs', -, ha', rfl, hb'⟩ := prefixAndValues_ok h'
  have hca := colon_not_mem_letters ha
  have hca' := colon_not_mem_letters ha'
  have hone := count_colon hca (not_mem_of_mapM_some hb charsetRevAt_colon)
  have hone' := count_colon hca' (not_mem_of_mapM_some hb' charsetRevAt_colon)
  rw [← hs] at hone
  rw [← hs'] at hone'
  simp only [List.count_append] at hone hone'
  rw [verifyChecksum_iff, expandPrefix_map_lowerCase_eq] at hv hv'
  have hfree {l : List UInt8} (hl : l.count ':'.toUInt8 = 0) : ':'.toUInt8 ∉ l :=
    List.count_eq_zero.mp hl
  rcases (show P.count ':'.toUInt8 = 1 ∨ X.count ':'.toUInt8 = 1 ∨ Q.count ':'.toUInt8 = 1
    by omega) with hP | hX | hQ
  · -- the separator before the burst: the burst is in the data
    obtain ⟨P₁, P₂, rfl, h₁, -⟩ := split_colon hP
    simp only [List.append_assoc, List.cons_append] at hs hs'
    obtain ⟨rfl, rfl⟩ := append_cons_inj h₁ hca hs
    obtain ⟨rfl, rfl⟩ := append_cons_inj h₁ hca' hs'
    obtain ⟨u₂, uXQ, hu₂, huXQ, rfl⟩ := mapM_append_some hb
    obtain ⟨uX, uQ, huX, huQ, rfl⟩ := mapM_append_some huXQ
    obtain ⟨u₂', uYQ, hu₂', huYQ, rfl⟩ := mapM_append_some hb'
    obtain ⟨uY, uQ', huY, huQ', rfl⟩ := mapM_append_some huYQ
    obtain rfl := Option.some.inj (hu₂.symm.trans hu₂')
    obtain rfl := Option.some.inj (huQ.symm.trans huQ')
    have hlX := length_of_mapM_some huX
    have hlY := length_of_mapM_some huY
    refine polyMod_ne_of_burst (P₁.map (fun c => lowerCase c &&& 0x1f) ++ [0] ++ u₂) uQ
      (by omega) (by omega) (mapM_charsetRevAt_lt huX) (mapM_charsetRevAt_lt huY) ?_ ?_
    · rintro rfl
      exact hXY (by rw [map_foldCase_of_mapM huX, map_foldCase_of_mapM huY])
    · simp only [List.append_assoc] at hv hv' ⊢
      rw [hv, hv']
  · -- the separator inside the burst: so is the other string's
    obtain ⟨X₁, X₂, rfl, h₁, h₂⟩ := split_colon hX
    simp only [List.count_append, List.count_cons_self] at hone hone'
    obtain ⟨Y₁, Y₂, rfl, h₁', -⟩ := split_colon (show Y.count ':'.toUInt8 = 1 by omega)
    have hP : ':'.toUInt8 ∉ P := hfree (by omega)
    simp only [List.append_assoc, List.cons_append] at hs hs'
    rw [← List.append_assoc] at hs hs'
    obtain ⟨rfl, rfl⟩ := append_cons_inj (by simp [hP, h₁]) hca hs
    obtain ⟨rfl, rfl⟩ := append_cons_inj (by simp [hP, h₁']) hca' hs'
    obtain ⟨uX, uQ, huX, huQ, rfl⟩ := mapM_append_some hb
    obtain ⟨uY, uQ', huY, huQ', rfl⟩ := mapM_append_some hb'
    obtain rfl := Option.some.inj (huQ.symm.trans huQ')
    have hX₁ : ∀ c ∈ X₁, isLower c ∨ isUpper c := fun c hc => ha c (by simp [hc])
    have hY₁ : ∀ c ∈ Y₁, isLower c ∨ isUpper c := fun c hc => ha' c (by simp [hc])
    have hlt {Z u : List UInt8} (hu : Z.mapM charsetRevAt = some u) (W : List UInt8) :
        ∀ d ∈ W.map (fun c => lowerCase c &&& 0x1f) ++ 0 :: u, d.toNat < 32 := by
      simp only [List.mem_append, List.mem_cons]
      rintro d (hd | rfl | hd)
      · exact symbols_lt W d hd
      · decide
      · exact mapM_charsetRevAt_lt hu d hd
    have hlX := length_of_mapM_some huX
    have hlY := length_of_mapM_some huY
    simp only [List.length_append, List.length_cons] at hlen h8
    refine polyMod_ne_of_burst (P.map fun c => lowerCase c &&& 0x1f) uQ
      (A := X₁.map (fun c => lowerCase c &&& 0x1f) ++ 0 :: uX)
      (B := Y₁.map (fun c => lowerCase c &&& 0x1f) ++ 0 :: uY)
      (by simp; omega) (by simp; omega) (hlt huX X₁) (hlt huY Y₁) ?_ ?_
    · intro heq
      obtain ⟨h₁, h₂⟩ := List.append_inj heq (by simpa using length_eq_of_symbols hX₁ hY₁ heq)
      obtain rfl := (List.cons.inj h₂).2
      exact hXY (by rw [List.map_append, List.map_append, List.map_cons, List.map_cons,
        map_foldCase_of_letters hX₁, map_foldCase_of_letters hY₁, h₁, map_foldCase_of_mapM huX,
        map_foldCase_of_mapM huY])
    · simp only [List.map_append, List.append_assoc, List.singleton_append, List.cons_append,
        List.nil_append] at hv hv' ⊢
      rw [hv, hv']
  · -- the separator after the burst: the burst is in the prefix
    obtain ⟨Q₁, Q₂, rfl, h₁, -⟩ := split_colon hQ
    simp only [List.count_append, List.count_cons_self] at hone hone' hQ
    have hA : ':'.toUInt8 ∉ P ++ X ++ Q₁ := hfree (by simp only [List.count_append]; omega)
    have hB : ':'.toUInt8 ∉ P ++ Y ++ Q₁ := hfree (by simp only [List.count_append]; omega)
    rw [← List.append_assoc] at hs hs'
    obtain ⟨rfl, rfl⟩ := append_cons_inj hA hca hs
    obtain ⟨rfl, rfl⟩ := append_cons_inj hB hca' hs'
    obtain rfl := Option.some.inj (hb.symm.trans hb')
    have hXl : ∀ c ∈ X, isLower c ∨ isUpper c := fun c hc => ha c (by simp [hc])
    have hYl : ∀ c ∈ Y, isLower c ∨ isUpper c := fun c hc => ha' c (by simp [hc])
    refine polyMod_ne_of_burst (P.map fun c => lowerCase c &&& 0x1f)
      (Q₁.map (fun c => lowerCase c &&& 0x1f) ++ [0] ++ v)
      (A := X.map fun c => lowerCase c &&& 0x1f) (B := Y.map fun c => lowerCase c &&& 0x1f)
      (by simpa using hlen)
      (by simpa using h8) (symbols_lt X) (symbols_lt Y) ?_ ?_
    · intro heq
      exact hXY (by rw [map_foldCase_of_letters hXl, map_foldCase_of_letters hYl, heq])
    · simp only [List.map_append, List.append_assoc] at hv hv' ⊢
      rw [hv, hv']

/-- A string none of whose readings passes the checksum decodes to an error, the checksum
mismatch exactly when it passes the format checks. -/
theorem decodeCashAddress_error_of {s : List UInt8}
    (h : ∀ pv, prefixAndValues s = .ok pv → verifyChecksum pv.1 pv.2 = false) :
    ∃ e, decodeCashAddress s = some (.error e) ∧
      (e = .errChecksumMismatch ↔ (prefixAndValues s).isOk = true) := by
  cases hpv : prefixAndValues s with
  | error e =>
    exact ⟨e, by simp [decodeCashAddress, hpv],
      by simp [prefixAndValues_error hpv, Except.isOk, Except.toBool]⟩
  | ok pv =>
    refine ⟨.errChecksumMismatch, ?_, by simp [Except.isOk, Except.toBool]⟩
    rw [decodeCashAddress_of_ok hpv, h pv hpv]
    rfl

/-- The checksum catches every burst error of up to eight characters: changing a run of at
most eight consecutive characters of an accepted address (prefix letters, the separator or
data) to a run that is not the same up to case is an error, the checksum mismatch exactly
when the changed string passes the format checks. -/
theorem decodeCashAddress_burst {P Q X Y : List UInt8} {r : List UInt8 × List UInt8}
    (hs : decodeCashAddress (P ++ X ++ Q) = some (.ok r)) (hlen : X.length = Y.length)
    (h8 : X.length ≤ 8) (hXY : X.map foldCase ≠ Y.map foldCase) :
    ∃ e, decodeCashAddress (P ++ Y ++ Q) = some (.error e) ∧
      (e = .errChecksumMismatch ↔ (prefixAndValues (P ++ Y ++ Q)).isOk = true) := by
  obtain ⟨p, payload⟩ := r
  obtain ⟨values, hpv, hv, -, -⟩ := decodeCashAddress_ok_values hs
  exact decodeCashAddress_error_of fun pv hpv' =>
    Bool.eq_false_iff.mpr fun hv' => checksum_burst hpv hv hpv' hv' hlen h8 hXY

set_option maxRecDepth 10000 in
/-- The spec's address with the eight characters around the separator, `cash:qpc`, moved to
`cashqpc:`: the prefix grows by three letters, and the checksum fails. -/
theorem decodeCashAddress_burst_separator : ∃ e, decodeCashAddress (ascii "bitcoin" ++
    ascii "cashqpc:" ++ ascii "enuhjnwk0xw4st4x0pyn69vmra29nnvghrpm8jg") = some (.error e) ∧
      (e = .errChecksumMismatch ↔ (prefixAndValues (ascii "bitcoin" ++ ascii "cashqpc:" ++
        ascii "enuhjnwk0xw4st4x0pyn69vmra29nnvghrpm8jg")).isOk = true) :=
  decodeCashAddress_burst (X := ascii "cash:qpc") rfl rfl (by decide) (by decide)

end AddressUtil.Bchutil
