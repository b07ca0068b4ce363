import AddressUtil.Basic

/-! bchutil's `convertBits` (bch.go's has the same body) with its loop invariant `Pending`, on
`Nat`: Go's `uint` accumulator stays below `2 ^ 15` at both call sites. -/

namespace AddressUtil.Bchutil

/-- The inner `for bits >= tobits` loop: it emits every whole `tobits` group pending in
`acc`, most significant first, and returns them with the bit count left over. Its
iterations are bounded by `fuel`, which the outer loop sets to `bits`: enough whenever
`tobits ≥ 1`, as at both call sites. -/
def drain (acc tobits maxv : Nat) : (fuel bits : Nat) → List Nat × Nat
  | 0, bits => ([], bits)
  | fuel + 1, bits =>
    if tobits ≤ bits then
      let r := drain acc tobits maxv fuel (bits - tobits)
      (((acc >>> (bits - tobits)) &&& maxv) :: r.1, r.2)
    else ([], bits)

/-- The variables of `convertBits`'s loop. -/
structure ConvertState where
  acc : Nat
  bits : Nat
  ret : List Nat

/-- One iteration of the outer loop, on input `value`. -/
def convertStep (fromBits tobits : Nat) (s : ConvertState) (value : Nat) : ConvertState :=
  let maxv := 2 ^ tobits - 1
  let maxAcc := 2 ^ (fromBits + tobits - 1) - 1
  let acc := ((s.acc <<< fromBits) ||| value) &&& maxAcc
  let bits := s.bits + fromBits
  let r := drain acc tobits maxv bits bits
  ⟨acc, r.2, s.ret ++ r.1⟩

/-- `convertBits`. With `pad`, leftover bits are shifted up into a last group; without,
leftover bits that fill a whole input value or are nonzero are an error. -/
def convertBits (data : List UInt8) (fromBits tobits : Nat) (pad : Bool) :
    Except GoError (List UInt8) :=
  let maxv := 2 ^ tobits - 1
  let s := (data.map UInt8.toNat).foldl (convertStep fromBits tobits) ⟨0, 0, []⟩
  if pad then
    .ok ((if s.bits > 0 then s.ret ++ [(s.acc <<< (tobits - s.bits)) &&& maxv] else s.ret).map
      Nat.toUInt8)
  else if s.bits ≥ fromBits ∨ (s.acc <<< (tobits - s.bits)) &&& maxv ≠ 0 then
    .error (.new "encoding padding error")
  else .ok (s.ret.map Nat.toUInt8)

theorem shiftRight_and_mask (x k t : Nat) : (x >>> k) &&& (2 ^ t - 1) = x / 2 ^ k % 2 ^ t := by
  rw [Nat.and_pow_two_sub_one_eq_mod, Nat.shiftRight_eq_div_pow]

theorem shiftLeft_and_mask (x k t : Nat) : (x <<< k) &&& (2 ^ t - 1) = x * 2 ^ k % 2 ^ t := by
  rw [Nat.and_pow_two_sub_one_eq_mod, Nat.shiftLeft_eq]

theorem shiftLeft_or_of_lt {v f : Nat} (acc : Nat) (hv : v < 2 ^ f) :
    (acc <<< f) ||| v = acc * 2 ^ f + v := by
  rw [Nat.shiftLeft_eq, Nat.mul_comm, Nat.mul_add_lt_is_or hv]

/-- The group the padding emits holds the pending bits at its top. -/
theorem pad_group {b t : Nat} (hb : b ≤ t) (acc : Nat) :
    acc * 2 ^ (t - b) % 2 ^ t = acc % 2 ^ b * 2 ^ (t - b) := by
  rw [show 2 ^ t = 2 ^ b * 2 ^ (t - b) by rw [← Nat.pow_add, Nat.add_sub_cancel' hb],
    Nat.mul_mod_mul_right]

/-- Dividing by `2 ^ r` splits at a position `t * q` above `r`. -/
theorem div_split {n r t q : Nat} (b : Nat) (hb : b = r + t * q) :
    n / 2 ^ r = n / 2 ^ b * (2 ^ t) ^ q + n % 2 ^ b / 2 ^ r := by
  have hn : n = n % 2 ^ b + 2 ^ r * ((2 ^ t) ^ q * (n / 2 ^ b)) := by
    rw [← Nat.mul_assoc, ← Nat.pow_mul, ← Nat.pow_add, ← hb]
    exact (Nat.mod_add_div n _).symm
  conv_lhs => rw [hn]
  rw [Nat.add_mul_div_left _ _ (Nat.two_pow_pos r)]
  ring

/-- What `drain` returns for `bits` pending bits: the remainder count, `bits / t` groups
below `2 ^ t`, whose value is the pending bits above the remainder. -/
structure Drained (acc t bits : Nat) (r : List Nat × Nat) : Prop where
  rest : r.2 = bits % t
  length : r.1.length = bits / t
  lt : ∀ g ∈ r.1, g < 2 ^ t
  value : beValue (2 ^ t) r.1 = acc % 2 ^ bits / 2 ^ (bits % t)

theorem drain_spec (acc : Nat) {t : Nat} (ht : 0 < t) {fuel bits : Nat} (h : bits ≤ fuel) :
    Drained acc t bits (drain acc t (2 ^ t - 1) fuel bits) := by
  induction fuel generalizing bits with
  | zero =>
    obtain rfl := Nat.le_zero.mp h
    exact ⟨by simp [drain], by simp [drain], by simp [drain], by simp [drain, Nat.mod_one]⟩
  | succ fuel ih =>
    rw [drain]
    split
    · rename_i hle
      obtain ⟨m, rfl⟩ := Nat.exists_eq_add_of_le' hle
      have ihm : Drained acc t m (drain acc t (2 ^ t - 1) fuel m) := ih (by omega)
      rw [Nat.add_sub_cancel]
      have hr : (m + t) % t = m % t := Nat.add_mod_right m t
      refine ⟨by simp [ihm.rest, hr], ?_, ?_, ?_⟩
      · simp [ihm.length, Nat.add_div_right m ht]
      · intro g hg
        rcases List.mem_cons.mp hg with rfl | hg
        · exact Nat.and_lt_two_pow _ (Nat.sub_lt (Nat.two_pow_pos t) Nat.one_pos)
        · exact ihm.lt g hg
      · have hhigh : acc % 2 ^ (m + t) / 2 ^ m = acc / 2 ^ m % 2 ^ t := by
          rw [Nat.pow_add, Nat.mod_mul, Nat.add_mul_div_left _ _ (Nat.two_pow_pos m),
            Nat.div_eq_of_lt (Nat.mod_lt _ (Nat.two_pow_pos m)), Nat.zero_add]
        rw [beValue_cons, ihm.value, ihm.length, hr, shiftRight_and_mask,
          div_split (n := acc % 2 ^ (m + t)) m (Nat.mod_add_div m t).symm,
          Nat.mod_mod_of_dvd _ (Nat.pow_dvd_pow 2 (Nat.le_add_right m t)), hhigh]
    · rename_i hlt
      have hb : bits % t = bits := Nat.mod_eq_of_lt (by omega)
      exact ⟨by simp [hb], by simp [Nat.div_eq_of_lt (by omega : bits < t)], by simp,
        by simp [hb, Nat.div_eq_of_lt (Nat.mod_lt _ (Nat.two_pow_pos bits))]⟩

/-- The invariant of `convertBits`'s loop after reading `len` values whose big-endian
value is `n`: fewer than `t` bits are pending at the bottom of `acc`, and the groups
emitted so far hold all the other bits. -/
structure Pending (f t n len : Nat) (s : ConvertState) : Prop where
  bits_lt : s.bits < t
  length_ret : s.ret.length * t + s.bits = f * len
  ret_lt : ∀ g ∈ s.ret, g < 2 ^ t
  value_ret : beValue (2 ^ t) s.ret = n / 2 ^ s.bits
  acc_mod : s.acc % 2 ^ s.bits = n % 2 ^ s.bits

/-- Appending `f` bits below two numbers keeps them equal on their low bits. -/
theorem mod_shift_add {a c b f : Nat} (v : Nat) (h : a % 2 ^ b = c % 2 ^ b) :
    (a * 2 ^ f + v) % 2 ^ (b + f) = (c * 2 ^ f + v) % 2 ^ (b + f) := by
  have split (x : Nat) : x * 2 ^ f + v = (x % 2 ^ b * 2 ^ f + v) + 2 ^ (b + f) * (x / 2 ^ b) := by
    conv_lhs => rw [← Nat.mod_add_div x (2 ^ b)]
    rw [Nat.pow_add]
    ring
  rw [split a, split c, Nat.add_mul_mod_self_left, Nat.add_mul_mod_self_left, h]

theorem pending_step {f t n len v : Nat} {s : ConvertState} (ht : 0 < t) (hv : v < 2 ^ f)
    (hs : Pending f t n len s) :
    Pending f t (n * 2 ^ f + v) (len + 1) (convertStep f t s v) := by
  have hb := hs.bits_lt
  set acc' := ((s.acc <<< f) ||| v) &&& (2 ^ (f + t - 1) - 1) with hacc'
  have hlow : acc' % 2 ^ (s.bits + f) = (n * 2 ^ f + v) % 2 ^ (s.bits + f) := by
    rw [hacc', shiftLeft_or_of_lt _ hv, Nat.and_pow_two_sub_one_eq_mod,
      Nat.mod_mod_of_dvd _ (Nat.pow_dvd_pow 2 (by omega)), mod_shift_add v hs.acc_mod]
  have hhigh : (n * 2 ^ f + v) / 2 ^ (s.bits + f) = n / 2 ^ s.bits := by
    rw [Nat.pow_add, Nat.mul_comm (2 ^ s.bits), ← Nat.div_div_eq_div_mul, Nat.mul_comm,
      Nat.mul_add_div (Nat.two_pow_pos f), Nat.div_eq_of_lt hv, Nat.add_zero]
  have hd := drain_spec acc' ht (le_refl (s.bits + f))
  have hdm := Nat.div_add_mod (s.bits + f) t
  refine ⟨?_, ?_, ?_, ?_, ?_⟩
  · simp only [convertStep, ← hacc', hd.rest]
    exact Nat.mod_lt _ ht
  · simp only [convertStep, ← hacc', hd.rest, List.length_append, hd.length, Nat.add_mul]
    rw [Nat.mul_comm (_ / t), Nat.add_assoc, hdm, ← Nat.add_assoc, hs.length_ret, Nat.mul_add_one]
  · intro g hg
    simp only [convertStep, ← hacc', List.mem_append] at hg
    exact hg.elim (hs.ret_lt g) (hd.lt g)
  · simp only [convertStep, ← hacc', hd.rest]
    rw [beValue_append, hs.value_ret, hd.value, hd.length, hlow, ← hhigh]
    exact (div_split (s.bits + f) (Nat.mod_add_div _ t).symm).symm
  · simp only [convertStep, ← hacc', hd.rest]
    have hle : (s.bits + f) % t ≤ s.bits + f := Nat.mod_le _ _
    rw [← Nat.mod_mod_of_dvd acc' (Nat.pow_dvd_pow 2 hle), hlow,
      Nat.mod_mod_of_dvd _ (Nat.pow_dvd_pow 2 hle)]

theorem pending_foldl {f t : Nat} (ht : 0 < t) (vs : List Nat) (hv : ∀ v ∈ vs, v < 2 ^ f)
    {n len : Nat} {s : ConvertState} (hs : Pending f t n len s) :
    Pending f t (n * (2 ^ f) ^ vs.length + beValue (2 ^ f) vs) (len + vs.length)
      (vs.foldl (convertStep f t) s) := by
  induction vs generalizing n len s with
  | nil => simpa using hs
  | cons v vs ih =>
    have h := ih (fun w hw => hv w (List.mem_cons_of_mem _ hw))
      (pending_step ht (hv v (List.mem_cons_self _ _)) hs)
    have e1 : n * (2 ^ f) ^ (vs.length + 1) + (v * (2 ^ f) ^ vs.length + beValue (2 ^ f) vs) =
        (n * 2 ^ f + v) * (2 ^ f) ^ vs.length + beValue (2 ^ f) vs := by ring
    rw [List.foldl_cons, List.length_cons, beValue_cons, e1, ← Nat.add_assoc,
      Nat.add_right_comm len]
    exact h

/-- The invariant holds after the whole input. -/
theorem pending_run {f t : Nat} (ht : 0 < t) (vs : List Nat) (hv : ∀ v ∈ vs, v < 2 ^ f) :
    Pending f t (beValue (2 ^ f) vs) vs.length (vs.foldl (convertStep f t) ⟨0, 0, []⟩) := by
  have h0 : Pending f t 0 0 ⟨0, 0, []⟩ := ⟨ht, by simp, by simp, by simp, by simp⟩
  simpa using pending_foldl ht vs hv h0

/-- Padded conversion: the groups carry the input's bits followed by `p < t` zero bits. -/
theorem convertBits_pad_spec {f t : Nat} (ht : 0 < t) (data : List UInt8)
    (hv : ∀ c ∈ data, c.toNat < 2 ^ f) :
    ∃ gs p, convertBits data f t true = .ok (gs.map Nat.toUInt8) ∧ (∀ g ∈ gs, g < 2 ^ t) ∧
      p < t ∧ gs.length * t = f * data.length + p ∧
      beValue (2 ^ t) gs = beValue (2 ^ f) (data.map UInt8.toNat) * 2 ^ p := by
  have hP := pending_run ht (data.map UInt8.toNat) (by simpa using hv)
  generalize hs : (data.map UInt8.toNat).foldl (convertStep f t) ⟨0, 0, []⟩ = s at hP
  have hl := hP.length_ret
  have hbt := hP.bits_lt
  rw [List.length_map] at hl
  by_cases hb : 0 < s.bits
  · have hg : (s.acc <<< (t - s.bits)) &&& (2 ^ t - 1) =
        beValue (2 ^ f) (data.map UInt8.toNat) % 2 ^ s.bits * 2 ^ (t - s.bits) := by
      rw [shiftLeft_and_mask, pad_group hP.bits_lt.le, hP.acc_mod]
    refine ⟨s.ret ++ [(s.acc <<< (t - s.bits)) &&& (2 ^ t - 1)], t - s.bits, ?_, ?_,
      by omega, ?_, ?_⟩
    · simp [convertBits, hs, hb]
    · intro g hg'
      rcases List.mem_append.mp hg' with h | h
      · exact hP.ret_lt g h
      · rw [List.mem_singleton.mp h]
        exact Nat.and_lt_two_pow _ (Nat.sub_lt (Nat.two_pow_pos t) Nat.one_pos)
    · simp only [List.length_append, List.length_singleton, Nat.add_mul, Nat.one_mul]
      omega
    · rw [beValue_append, hP.value_ret, List.length_singleton, Nat.pow_one, hg,
        beValue_cons, List.length_nil, Nat.pow_zero, Nat.mul_one, beValue_nil, Nat.add_zero]
      conv_rhs => rw [← Nat.div_add_mod (beValue (2 ^ f) (data.map UInt8.toNat)) (2 ^ s.bits)]
      rw [show 2 ^ t = 2 ^ s.bits * 2 ^ (t - s.bits) by
        rw [← Nat.pow_add, Nat.add_sub_cancel' hP.bits_lt.le]]
      ring
  · have hb0 : s.bits = 0 := Nat.eq_zero_of_not_pos hb
    refine ⟨s.ret, 0, ?_, hP.ret_lt, ht, by omega, ?_⟩
    · simp [convertBits, hs, hb0]
    · simp [hP.value_ret, hb0]

/-- Padded conversion emits `tobits`-bit groups. -/
theorem convertBits_pad_lt {f t : Nat} (ht : 0 < t) (ht8 : t ≤ 8) {data groups : List UInt8}
    (hv : ∀ c ∈ data, c.toNat < 2 ^ f) (h : convertBits data f t true = .ok groups) :
    ∀ c ∈ groups, c.toNat < 2 ^ t := by
  obtain ⟨gs, p, hpack, hlt, -⟩ := convertBits_pad_spec ht data hv
  rw [hpack, Except.ok.injEq] at h
  subst h
  intro c hc
  obtain ⟨g, hg, rfl⟩ := List.mem_map.mp hc
  have h256 : g < 256 :=
    Nat.lt_of_lt_of_le (hlt g hg) (Nat.pow_le_pow_right (by norm_num) ht8)
  rw [toNat_toUInt8 h256]
  exact hlt g hg

/-- Unpadded conversion fails exactly when a whole input value is left over or the
leftover bits are not zero. -/
theorem convertBits_unpad_spec {f t : Nat} (ht : 0 < t) (data : List UInt8)
    (hv : ∀ c ∈ data, c.toNat < 2 ^ f) :
    ∃ s, Pending f t (beValue (2 ^ f) (data.map UInt8.toNat)) data.length s ∧
      convertBits data f t false =
        if f ≤ s.bits ∨ beValue (2 ^ f) (data.map UInt8.toNat) % 2 ^ s.bits ≠ 0 then
          .error (.new "encoding padding error")
        else .ok (s.ret.map Nat.toUInt8) := by
  have hP := pending_run ht (data.map UInt8.toNat) (by simpa using hv)
  rw [List.length_map] at hP
  refine ⟨_, hP, ?_⟩
  generalize hs : (data.map UInt8.toNat).foldl (convertStep f t) ⟨0, 0, []⟩ = s at hP
  have hmask : (s.acc <<< (t - s.bits)) &&& (2 ^ t - 1) ≠ 0 ↔
      beValue (2 ^ f) (data.map UInt8.toNat) % 2 ^ s.bits ≠ 0 := by
    rw [shiftLeft_and_mask, pad_group hP.bits_lt.le, hP.acc_mod]
    simp [Nat.pos_iff_ne_zero.mp (Nat.two_pow_pos (t - s.bits))]
  simp only [convertBits, hs, Bool.false_eq_true, if_false, ge_iff_le]
  simp only [hmask]

/-- Unpadded conversion leaves fewer than `fromBits` bits over. -/
theorem length_convertBits_unpad {f t : Nat} (ht : 0 < t) {data out : List UInt8}
    (hv : ∀ c ∈ data, c.toNat < 2 ^ f) (h : convertBits data f t false = .ok out) :
    out.length * t ≤ f * data.length ∧ f * data.length < out.length * t + f := by
  obtain ⟨s, hP, heq⟩ := convertBits_unpad_spec ht data hv
  rw [heq] at h
  split_ifs at h with hcond
  cases h
  have hl := hP.length_ret
  rw [List.length_map]
  omega

/-- Packing bytes into 5-bit groups and unpacking them gives the bytes back. -/
theorem convertBits_pack_unpack (data : List UInt8) :
    ∃ groups, convertBits data 8 5 true = .ok groups ∧ (∀ g ∈ groups, g.toNat < 32) ∧
      convertBits groups 5 8 false = .ok data := by
  obtain ⟨gs, p, hpack, hlt, hp, hlen, hval⟩ :=
    convertBits_pad_spec (f := 8) (t := 5) (by norm_num) data fun c _ => toNat_lt_256 c
  have hgs := map_toNat_map_toUInt8 fun g hg => Nat.lt_trans (hlt g hg) (by norm_num)
  have hbound : ∀ c ∈ gs.map Nat.toUInt8, c.toNat < 2 ^ 5 :=
    fun c hc => hlt _ (hgs ▸ List.mem_map_of_mem _ hc)
  refine ⟨gs.map Nat.toUInt8, hpack, hbound, ?_⟩
  obtain ⟨s, hP, heq⟩ := convertBits_unpad_spec (f := 5) (t := 8) (by norm_num)
    (gs.map Nat.toUInt8) hbound
  rw [hgs, List.length_map] at hP
  rw [hgs] at heq
  have hl := hP.length_ret
  have hb8 := hP.bits_lt
  have hbits : s.bits = p := by omega
  have hret : s.ret.length = data.length := by omega
  rw [heq, hval, hbits, if_neg (by simp [Nat.mul_mod_left]; omega)]
  congr 1
  have hr : s.ret = data.map UInt8.toNat := by
    refine beValue_inj (b := 2 ^ 8) (by simp [hret]) hP.ret_lt
      (by simpa using fun c _ => toNat_lt_256 c) ?_
    rw [hP.value_ret, hval, hbits, Nat.mul_div_cancel _ (Nat.two_pow_pos p)]
  rw [hr, List.map_map, toUInt8_comp_toNat, List.map_id]

/-- Symbols that unpack without error pack back to themselves: the leftover bits that
unpacking checks are zero are the padding that packing adds. -/
theorem convertBits_unpack_pack {v d : List UInt8} (hv : ∀ x ∈ v, x.toNat < 32)
    (h : convertBits v 5 8 false = .ok d) : convertBits d 8 5 true = .ok v := by
  obtain ⟨s, hP, heq⟩ := convertBits_unpad_spec (f := 5) (t := 8) (by norm_num) v hv
  rw [heq] at h
  split_ifs at h with hcond
  cases h
  simp only [not_or, not_le, ne_eq, not_not] at hcond
  have hret := map_toNat_map_toUInt8 hP.ret_lt
  obtain ⟨gs, p, hpack, hlt, hp, hlen, hval⟩ := convertBits_pad_spec (f := 8) (t := 5)
    (by norm_num) (s.ret.map Nat.toUInt8) fun c _ => toNat_lt_256 c
  have hl := hP.length_ret
  rw [List.length_map] at hlen
  have hbits : p = s.bits := by omega
  have hgs : gs = v.map UInt8.toNat := by
    refine beValue_inj (b := 2 ^ 5) (by simp only [List.length_map]; omega) hlt
      (by simpa using hv) ?_
    rw [hval, hret, hP.value_ret, hbits, Nat.div_mul_cancel (Nat.dvd_of_mod_eq_zero hcond.2)]
  rw [hpack, hgs, List.map_map, toUInt8_comp_toNat, List.map_id]

/-- A version byte and a 20-byte hash pack into 34 symbols, the first of them the byte's
top five bits. -/
theorem convertBits_version_hash (v : UInt8) {h groups : List UInt8} (hh : h.length = 20)
    (hg : convertBits (v :: h) 8 5 true = .ok groups) :
    groups.length = 34 ∧ (groups.headD 0).toNat = v.toNat / 8 := by
  obtain ⟨gs, p, hpack, hlt, hp, hlen, hval⟩ :=
    convertBits_pad_spec (f := 8) (t := 5) (by norm_num) (v :: h) fun c _ => toNat_lt_256 c
  rw [hpack, Except.ok.injEq] at hg
  subst hg
  simp only [List.length_cons, hh] at hlen
  obtain ⟨g, rest, rfl⟩ := List.exists_cons_of_length_eq_add_one (show gs.length = 33 + 1 by omega)
  have hrest : rest.length = 33 := by simp at hlen; omega
  have hR : beValue 32 rest < 32 ^ 33 :=
    hrest ▸ beValue_lt fun x hx => hlt x (List.mem_cons_of_mem _ hx)
  have hH : beValue 256 (h.map UInt8.toNat) < 256 ^ 20 := by
    simpa [hh] using beValue_lt (show ∀ x ∈ h.map UInt8.toNat, x < 256 by simp [toNat_lt_256])
  have hg32 : g < 32 := hlt g (List.mem_cons_self _ _)
  rw [List.map_cons, beValue_cons, beValue_cons, List.length_map, hh, hrest,
    show p = 2 by omega] at hval
  refine ⟨by simpa using hrest, ?_⟩
  rw [List.map_cons, List.headD_cons, toNat_toUInt8 (by omega)]
  norm_num at hval hR hH
  omega

/-- Packing is injective: the unpacking undoes it. -/
theorem convertBits_pack_inj {data data' groups : List UInt8}
    (h : convertBits data 8 5 true = .ok groups) (h' : convertBits data' 8 5 true = .ok groups) :
    data = data' := by
  obtain ⟨gs, hpack, -, hunpack⟩ := convertBits_pack_unpack data
  obtain ⟨gs', hpack', -, hunpack'⟩ := convertBits_pack_unpack data'
  rw [h, Except.ok.injEq] at hpack
  rw [h', Except.ok.injEq] at hpack'
  subst hpack hpack'
  rw [hunpack, Except.ok.injEq] at hunpack'
  exact hunpack'

end AddressUtil.Bchutil
