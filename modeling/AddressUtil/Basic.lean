import Mathlib.Data.Nat.Digits

/-! Byte strings as `List UInt8`, Go error values, big-endian digit lists and the hash primitives
the address code calls. -/

namespace AddressUtil

/-- A Go string literal, as the bytes of its ASCII text. -/
def ascii (s : String) : List UInt8 := s.toList.map fun c => c.toNat.toUInt8

theorem append_ascii_colon (p q : List UInt8) : p ++ ascii ":" ++ q = p ++ ':'.toUInt8 :: q := by
  simp [ascii]
  rfl

/-- Go error values. The sentinels that some caller compares against are constructors;
every other error is `new` with the text given to `errors.New` or `fmt.Errorf`. -/
inductive GoError where
  /-- `bchutil.ErrChecksumMismatch`, "checksum mismatch". -/
  | errChecksumMismatch
  /-- `bchutil.ErrUnknownAddressType`, "unknown address type". -/
  | errUnknownAddressType
  /-- `bchutil.ErrAddressCollision`, "address collision". -/
  | errAddressCollision
  /-- `addressutil.ErrPublicKeyFormat`, "public key format error". -/
  | errPublicKeyFormat
  /-- `util.ErrDuplicateNet`, "duplicate Bitcoin network". -/
  | errDuplicateNet
  /-- `base58.ErrChecksum`: the carried checksum differs from the recomputed one. -/
  | errChecksum
  /-- The Base58Check decoder's length failure. -/
  | errInvalidLength
  | new (msg : String)
  deriving DecidableEq, Repr

@[simp] theorem toUInt8_toNat (c : UInt8) : c.toNat.toUInt8 = c :=
  UInt8.toNat.inj (UInt8.toNat_ofNat_of_lt (UInt8.toNat_lt_size c))

@[simp] theorem toUInt8_comp_toNat : Nat.toUInt8 ∘ UInt8.toNat = id := funext toUInt8_toNat

theorem toNat_toUInt8 {n : Nat} (h : n < 256) : n.toUInt8.toNat = n :=
  UInt8.toNat_ofNat_of_lt h

theorem map_toNat_map_toUInt8 {ds : List Nat} (h : ∀ n ∈ ds, n < 256) :
    (ds.map Nat.toUInt8).map UInt8.toNat = ds := by
  rw [List.map_map]
  conv_rhs => rw [← List.map_id ds]
  exact List.map_congr_left fun n hn => toNat_toUInt8 (h n hn)

theorem toNat_lt_256 (c : UInt8) : c.toNat < 256 := UInt8.toNat_lt_size c

/-- A fact about every byte, from the 256 values it can take (closed by `decide`). -/
theorem forall_byte {P : UInt8 → Prop} (h : ∀ n < 256, P n.toUInt8) (c : UInt8) : P c := by
  simpa using h c.toNat (toNat_lt_256 c)

/-- `c >= 'a' && c <= 'z'`. -/
def isLower (c : UInt8) : Bool := c ≥ 'a'.toUInt8 && c ≤ 'z'.toUInt8

/-- `c >= 'A' && c <= 'Z'`. -/
def isUpper (c : UInt8) : Bool := c ≥ 'A'.toUInt8 && c ≤ 'Z'.toUInt8

/-- `c >= '0' && c <= '9'`. -/
def isDigit (c : UInt8) : Bool := c ≥ '0'.toUInt8 && c ≤ '9'.toUInt8

/-- ASCII case folding, as `strings.ToLower` does on ASCII text. -/
def foldCase (c : UInt8) : UInt8 := if isUpper c then c + 0x20 else c

/-- ASCII upper-casing, as `strings.ToUpper` does on ASCII text. -/
def upperCase (c : UInt8) : UInt8 := if isLower c then c - 0x20 else c

/-- No byte is in two of the classes. -/
theorem byte_classes (c : UInt8) : (isLower c && isUpper c) = false ∧
    (isLower c && isDigit c) = false ∧ (isUpper c && isDigit c) = false := by
  refine forall_byte (P := fun c => (isLower c && isUpper c) = false ∧
    (isLower c && isDigit c) = false ∧ (isUpper c && isDigit c) = false) ?_ c
  set_option maxRecDepth 4000 in decide

/-- A list splits at most one way around a separator that occurs in neither first part. -/
theorem append_cons_inj {α : Type} {x : α} {a a' b b' : List α} (ha : x ∉ a) (ha' : x ∉ a')
    (h : a ++ x :: b = a' ++ x :: b') : a = a' ∧ b = b' := by
  induction a generalizing a' with
  | nil =>
    cases a' with
    | nil => simpa using h
    | cons y a' =>
      obtain ⟨rfl, -⟩ := List.cons.inj h
      exact absurd (List.mem_cons_self _ _) ha'
  | cons y a ih =>
    cases a' with
    | nil =>
      obtain ⟨rfl, -⟩ := List.cons.inj h
      exact absurd (List.mem_cons_self _ _) ha
    | cons z a' =>
      simp only [List.cons_append, List.cons.injEq] at h
      obtain ⟨rfl, h⟩ := h
      obtain ⟨rfl, rfl⟩ := ih (fun hm => ha (List.mem_cons_of_mem _ hm))
        (fun hm => ha' (List.mem_cons_of_mem _ hm)) h
      exact ⟨rfl, rfl⟩

theorem mapM_append_some {α β : Type} {f : α → Option β} {xs ys : List α} {v : List β}
    (h : (xs ++ ys).mapM f = some v) :
    ∃ u w, xs.mapM f = some u ∧ ys.mapM f = some w ∧ v = u ++ w := by
  simp only [List.mapM_append, Option.bind_eq_bind, Option.bind_eq_some, Option.pure_def,
    Option.some.injEq] at h
  obtain ⟨u, hu, w, hw, rfl⟩ := h
  exact ⟨u, w, hu, hw, rfl⟩

theorem mapM_cons_some {α β : Type} {f : α → Option β} {x : α} {xs : List α} {v : List β}
    (h : (x :: xs).mapM f = some v) :
    ∃ w u, f x = some w ∧ xs.mapM f = some u ∧ v = w :: u := by
  simp only [List.mapM_cons, Option.bind_eq_bind, Option.bind_eq_some, Option.pure_def,
    Option.some.injEq] at h
  obtain ⟨w, hw, u, hu, rfl⟩ := h
  exact ⟨w, u, hw, hu, rfl⟩

theorem length_of_mapM_some {α β : Type} {f : α → Option β} {xs : List α} {v : List β}
    (h : xs.mapM f = some v) : v.length = xs.length := by
  induction xs generalizing v with
  | nil => cases h; rfl
  | cons x xs ih =>
    obtain ⟨w, u, -, hu, rfl⟩ := mapM_cons_some h
    simp [ih hu]

theorem exists_of_mapM_some {α β : Type} {f : α → Option β} {xs : List α} {v : List β}
    (h : xs.mapM f = some v) {x : α} (hx : x ∈ xs) : ∃ w, f x = some w := by
  induction xs generalizing v with
  | nil => cases hx
  | cons y xs ih =>
    obtain ⟨w, u, hw, hu, rfl⟩ := mapM_cons_some h
    rcases List.mem_cons.mp hx with rfl | hx
    · exact ⟨w, hw⟩
    · exact ih hu hx

theorem mapM_some_of_forall {α β : Type} {f : α → Option β} {xs : List α}
    (h : ∀ x ∈ xs, ∃ w, f x = some w) : ∃ v, xs.mapM f = some v := by
  induction xs with
  | nil => exact ⟨[], rfl⟩
  | cons x xs ih =>
    obtain ⟨w, hw⟩ := h x (List.mem_cons_self _ _)
    obtain ⟨u, hu⟩ := ih fun y hy => h y (List.mem_cons_of_mem _ hy)
    exact ⟨w :: u, by rw [List.mapM_cons, hw, hu]; rfl⟩

theorem mem_of_mapM_some {α β : Type} {f : α → Option β} {xs : List α} {v : List β}
    (h : xs.mapM f = some v) {y : β} (hy : y ∈ v) : ∃ x ∈ xs, f x = some y := by
  induction xs generalizing v with
  | nil => cases h; cases hy
  | cons x xs ih =>
    obtain ⟨w, u, hw, hu, rfl⟩ := mapM_cons_some h
    rcases List.mem_cons.mp hy with rfl | hy
    · exact ⟨x, List.mem_cons_self _ _, hw⟩
    · obtain ⟨x', hx', hf⟩ := ih hu hy
      exact ⟨x', List.mem_cons_of_mem _ hx', hf⟩

theorem not_mem_of_mapM_some {α β : Type} {f : α → Option β} {xs : List α} {v : List β}
    (h : xs.mapM f = some v) {x : α} (hx : f x = none) : x ∉ xs := by
  intro hm
  obtain ⟨l₁, l₂, rfl⟩ := List.append_of_mem hm
  obtain ⟨u, w, -, hw, -⟩ := mapM_append_some h
  obtain ⟨w', -, hx', -⟩ := mapM_cons_some hw
  rw [hx] at hx'
  cases hx'

/-- A hash function of the crypto libraries, with the fixed length of its digest. -/
structure Digest (n : Nat) where
  sum : List UInt8 → List UInt8
  length_sum : ∀ m, (sum m).length = n

attribute [simp] Digest.length_sum

/-- Modelled from the spec: the `ecc` package, which src/ does not contain. `parsePubKey` is
`ParsePubKey` on secp256k1 followed by `SerializeCompressed`: the compressed encoding of a
valid key, or the parser's error. -/
structure Ecc where
  parsePubKey : List UInt8 → Except GoError (List UInt8)

/-- The number a big-endian digit list denotes in base `b`. -/
def beValue (b : Nat) (xs : List Nat) : Nat := xs.foldl (fun a x => a * b + x) 0

theorem foldl_beValue (b : Nat) (xs : List Nat) (a : Nat) :
    xs.foldl (fun a x => a * b + x) a = a * b ^ xs.length + beValue b xs := by
  induction xs generalizing a with
  | nil => simp [beValue]
  | cons x xs ih =>
    have hx : beValue b (x :: xs) = x * b ^ xs.length + beValue b xs := by
      simp only [beValue, List.foldl_cons, Nat.zero_mul, Nat.zero_add]
      exact ih x
    rw [List.foldl_cons, ih, hx, List.length_cons, Nat.pow_succ]
    ring

@[simp] theorem beValue_nil (b : Nat) : beValue b [] = 0 := rfl

theorem beValue_cons (b x : Nat) (xs : List Nat) :
    beValue b (x :: xs) = x * b ^ xs.length + beValue b xs := by
  rw [beValue, List.foldl_cons, foldl_beValue, Nat.zero_mul, Nat.zero_add]

theorem beValue_append (b : Nat) (xs ys : List Nat) :
    beValue b (xs ++ ys) = beValue b xs * b ^ ys.length + beValue b ys := by
  rw [beValue, List.foldl_append, foldl_beValue]
  rfl

theorem beValue_lt {b : Nat} {xs : List Nat} (h : ∀ x ∈ xs, x < b) :
    beValue b xs < b ^ xs.length := by
  induction xs with
  | nil => simp
  | cons x xs ih =>
    rw [beValue_cons, List.length_cons, Nat.pow_succ']
    have hx : x + 1 ≤ b := h x (List.mem_cons_self _ _)
    have hr := ih fun y hy => h y (List.mem_cons_of_mem _ hy)
    calc x * b ^ xs.length + beValue b xs < x * b ^ xs.length + b ^ xs.length := by omega
      _ = (x + 1) * b ^ xs.length := by ring
      _ ≤ b * b ^ xs.length := Nat.mul_le_mul_right _ hx

/-- Digit lists of one length are determined by their value. -/
theorem beValue_inj {b : Nat} {xs ys : List Nat} (hl : xs.length = ys.length)
    (hx : ∀ x ∈ xs, x < b) (hy : ∀ y ∈ ys, y < b) (h : beValue b xs = beValue b ys) :
    xs = ys := by
  induction xs generalizing ys with
  | nil => simpa [eq_comm] using hl
  | cons x xs ih =>
    obtain ⟨y, ys, rfl⟩ := List.exists_cons_of_length_eq_add_one hl.symm
    simp only [List.length_cons, Nat.add_right_cancel_iff] at hl
    rw [beValue_cons, beValue_cons, hl] at h
    have hrx := beValue_lt fun z hz => hx z (List.mem_cons_of_mem _ hz)
    have hry := beValue_lt fun z hz => hy z (List.mem_cons_of_mem _ hz)
    rw [hl] at hrx
    have hB : 0 < b ^ ys.length := by omega
    have high (z r : Nat) (hr : r < b ^ ys.length) : (z * b ^ ys.length + r) / b ^ ys.length = z := by
      rw [Nat.mul_comm, Nat.mul_add_div hB, Nat.div_eq_of_lt hr, Nat.add_zero]
    have hxy : x = y := by rw [← high x _ hrx, ← high y _ hry, h]
    subst hxy
    rw [ih hl (fun z hz => hx z (List.mem_cons_of_mem _ hz))
      (fun z hz => hy z (List.mem_cons_of_mem _ hz)) (by omega)]

/-- The big-endian value is Mathlib's little-endian `ofDigits` of the reversed list. -/
theorem beValue_eq_ofDigits (b : Nat) (xs : List Nat) :
    beValue b xs = Nat.ofDigits b xs.reverse := by
  induction xs with
  | nil => rfl
  | cons x xs ih =>
    rw [beValue_cons, List.reverse_cons, Nat.ofDigits_append, ← ih, List.length_reverse,
      Nat.ofDigits_singleton]
    ring

end AddressUtil
