import AddressUtil.Basic
import Mathlib.Data.Nat.Bitwise

/-! bchutil's CashAddr checksum `polyMod`, a 40-bit state machine over 5-bit symbols whose step is
affine and invertible, so a burst of up to eight symbols changes it. -/

namespace AddressUtil.Bchutil

/-- One iteration of `polyMod`'s loop, on symbol `d`. Go computes on `uint64`; every
state this produces is below `2 ^ 40` (`polyModStep_lt`), so nothing wraps. -/
def polyModStep (c : Nat) (d : UInt8) : Nat :=
  let c0 := (c >>> 35) % 256
  let c := ((c &&& 0x07ffffffff) <<< 5) ^^^ d.toNat
  let c := if c0 &&& 0x01 > 0 then c ^^^ 0x98f2bc8e61 else c
  let c := if c0 &&& 0x02 > 0 then c ^^^ 0x79b76d99e2 else c
  let c := if c0 &&& 0x04 > 0 then c ^^^ 0xf33e5fb3c4 else c
  let c := if c0 &&& 0x08 > 0 then c ^^^ 0xae2eabe2a8 else c
  if c0 &&& 0x10 > 0 then c ^^^ 0x1e4f43e470 else c

/-- `polyMod`. -/
def polyMod (v : List UInt8) : Nat := v.foldl polyModStep 1 ^^^ 1

/-- `expandPrefix`: the low five bits of each prefix byte, then a zero. -/
def expandPrefix (pfx : List UInt8) : List UInt8 := pfx.map (· &&& 0x1f) ++ [0]

/-- `verifyChecksum`, with `cat` as list append. -/
def verifyChecksum (pfx payload : List UInt8) : Bool := polyMod (expandPrefix pfx ++ payload) = 0

/-- The generators the five top bits `c0` select, xored together. -/
def feedback (c0 : Nat) : Nat :=
  (if c0 &&& 0x01 > 0 then 0x98f2bc8e61 else 0) ^^^
  (if c0 &&& 0x02 > 0 then 0x79b76d99e2 else 0) ^^^
  (if c0 &&& 0x04 > 0 then 0xf33e5fb3c4 else 0) ^^^
  (if c0 &&& 0x08 > 0 then 0xae2eabe2a8 else 0) ^^^
  (if c0 &&& 0x10 > 0 then 0x1e4f43e470 else 0)

theorem shiftLeft_xor_distrib (a b k : Nat) : (a ^^^ b) <<< k = (a <<< k) ^^^ (b <<< k) :=
  Nat.eq_of_testBit_eq fun i => by simp [Bool.and_xor_distrib_left]

theorem shiftRight_xor_distrib (a b k : Nat) : (a ^^^ b) >>> k = (a >>> k) ^^^ (b >>> k) :=
  Nat.eq_of_testBit_eq fun i => by simp

theorem xor_mod_two_pow (a b k : Nat) : (a ^^^ b) % 2 ^ k = (a % 2 ^ k) ^^^ (b % 2 ^ k) :=
  Nat.eq_of_testBit_eq fun i => by simp [Bool.and_xor_distrib_left]

/-- Xoring a value below `2 ^ 5` into a shifted number is adding it. -/
theorem shiftLeft_xor_of_lt (a : Nat) {g : Nat} (hg : g < 2 ^ 5) :
    (a <<< 5) ^^^ g = a * 2 ^ 5 + g := by
  refine Nat.eq_of_testBit_eq fun i => ?_
  rw [Nat.testBit_xor, Nat.mul_comm, Nat.testBit_mul_pow_two_add a hg, Nat.testBit_shiftLeft]
  by_cases hi : i < 5
  · simp [hi, show ¬ i ≥ 5 by omega]
  · have hgi : g < 2 ^ i := Nat.lt_of_lt_of_le hg (Nat.pow_le_pow_right (by norm_num) (by omega))
    simp [hi, show i ≥ 5 by omega, Nat.testBit_lt_two_pow hgi]

theorem ite_xor (p : Prop) [Decidable p] (x g : Nat) :
    (if p then x ^^^ g else x) = x ^^^ (if p then g else 0) := by
  split <;> simp

theorem polyModStep_eq (c : Nat) (d : UInt8) :
    polyModStep c d = ((c &&& 0x07ffffffff) <<< 5) ^^^ d.toNat ^^^ feedback ((c >>> 35) % 256) := by
  simp only [polyModStep, ite_xor]
  simp only [feedback, Nat.xor_assoc]

theorem feedback_lt (c0 : Nat) : feedback c0 < 2 ^ 40 := by
  unfold feedback
  refine Nat.xor_lt_two_pow (Nat.xor_lt_two_pow (Nat.xor_lt_two_pow
    (Nat.xor_lt_two_pow ?_ ?_) ?_) ?_) ?_ <;> split <;> norm_num

/-- The low five bits of the feedback are the top bits that chose it. -/
theorem feedback_mod : ∀ c0 < 32, feedback c0 % 2 ^ 5 = c0 := by decide

theorem shiftLeft_mask_lt (c : Nat) : (c &&& 0x07ffffffff) <<< 5 < 2 ^ 40 := by
  rw [Nat.shiftLeft_eq, show (0x07ffffffff : Nat) = 2 ^ 35 - 1 by norm_num,
    Nat.and_pow_two_sub_one_eq_mod]
  have := Nat.mod_lt c (Nat.two_pow_pos 35)
  calc c % 2 ^ 35 * 2 ^ 5 < 2 ^ 35 * 2 ^ 5 := Nat.mul_lt_mul_of_pos_right this (by norm_num)
    _ = 2 ^ 40 := by norm_num

/-- Every state `polyMod` produces is a 40-bit number. -/
theorem polyModStep_lt (c : Nat) (d : UInt8) : polyModStep c d < 2 ^ 40 := by
  rw [polyModStep_eq]
  exact Nat.xor_lt_two_pow (Nat.xor_lt_two_pow (shiftLeft_mask_lt c)
    (Nat.lt_trans (toNat_lt_256 d) (by norm_num))) (feedback_lt _)

theorem foldl_polyModStep_lt {c : Nat} (hc : c < 2 ^ 40) (v : List UInt8) :
    v.foldl polyModStep c < 2 ^ 40 := by
  induction v generalizing c with
  | nil => exact hc
  | cons d v ih => exact ih (polyModStep_lt c d)

/-- A symbol is xored in at the bottom. -/
theorem polyModStep_eq_xor (c : Nat) (d : UInt8) :
    polyModStep c d = polyModStep c 0 ^^^ d.toNat := by
  rw [polyModStep_eq, polyModStep_eq]
  simp only [UInt8.toNat_zero, Nat.xor_zero]
  rw [Nat.xor_assoc, Nat.xor_comm d.toNat, ← Nat.xor_assoc, Nat.xor_assoc]

theorem and_mask_of_lt {x : Nat} (hx : x < 2 ^ 35) : x &&& 0x07ffffffff = x := by
  rw [show (0x07ffffffff : Nat) = 2 ^ 35 - 1 by norm_num]
  exact Nat.and_pow_two_sub_one_of_lt_two_pow hx

/-- A difference below bit 35 leaves the feedback alone and moves up five places. -/
theorem polyModStep_xor_low (c : Nat) {x : Nat} (hx : x < 2 ^ 35) :
    polyModStep (c ^^^ x) 0 = polyModStep c 0 ^^^ (x <<< 5) := by
  have htop : (c ^^^ x) >>> 35 = c >>> 35 := by
    rw [shiftRight_xor_distrib, Nat.shiftRight_eq_div_pow x, Nat.div_eq_of_lt hx, Nat.xor_zero]
  rw [polyModStep_eq, polyModStep_eq, htop, Nat.and_xor_distrib_right, and_mask_of_lt hx,
    shiftLeft_xor_distrib]
  simp only [UInt8.toNat_zero, Nat.xor_zero]
  rw [Nat.xor_assoc, Nat.xor_comm (x <<< 5), ← Nat.xor_assoc]

/-- The state a step came from, given the step's result and symbol. -/
def polyModUnstep (s : Nat) (d : UInt8) : Nat :=
  let c0 := (s ^^^ d.toNat) % 2 ^ 5
  c0 * 2 ^ 35 + ((s ^^^ d.toNat ^^^ feedback c0) >>> 5)

theorem polyModUnstep_polyModStep {c : Nat} (hc : c < 2 ^ 40) (d : UInt8) :
    polyModUnstep (polyModStep c d) d = c := by
  have h32 : c >>> 35 < 2 ^ 5 := by
    rw [Nat.shiftRight_eq_div_pow]
    exact Nat.div_lt_of_lt_mul (by rw [← Nat.pow_add]; exact hc)
  have hcancel : polyModStep c d ^^^ d.toNat =
      ((c &&& 0x07ffffffff) <<< 5) ^^^ feedback (c >>> 35) := by
    rw [polyModStep_eq_xor, Nat.xor_assoc, Nat.xor_self, Nat.xor_zero, polyModStep_eq,
      Nat.mod_eq_of_lt (Nat.lt_trans h32 (by norm_num))]
    simp
  have hc0 : (polyModStep c d ^^^ d.toNat) % 2 ^ 5 = c >>> 35 := by
    rw [hcancel, xor_mod_two_pow, Nat.shiftLeft_eq, Nat.mul_mod_left, Nat.zero_xor,
      feedback_mod _ h32]
  simp only [polyModUnstep]
  rw [hc0, hcancel, Nat.xor_assoc, Nat.xor_self, Nat.xor_zero, Nat.shiftLeft_eq,
    Nat.shiftRight_eq_div_pow, Nat.shiftRight_eq_div_pow, Nat.mul_div_cancel _ (Nat.two_pow_pos 5),
    show (0x07ffffffff : Nat) = 2 ^ 35 - 1 by norm_num, Nat.and_pow_two_sub_one_eq_mod]
  exact Nat.div_add_mod' c _

theorem polyModStep_injective {c₁ c₂ : Nat} (h₁ : c₁ < 2 ^ 40) (h₂ : c₂ < 2 ^ 40) (d : UInt8)
    (h : polyModStep c₁ d = polyModStep c₂ d) : c₁ = c₂ := by
  rw [← polyModUnstep_polyModStep h₁ d, h, polyModUnstep_polyModStep h₂ d]

theorem foldl_polyModStep_injective {c₁ c₂ : Nat} (h₁ : c₁ < 2 ^ 40) (h₂ : c₂ < 2 ^ 40)
    (v : List UInt8) (h : v.foldl polyModStep c₁ = v.foldl polyModStep c₂) : c₁ = c₂ := by
  induction v generalizing c₁ c₂ with
  | nil => exact h
  | cons d v ih =>
    exact polyModStep_injective h₁ h₂ d (ih (polyModStep_lt c₁ d) (polyModStep_lt c₂ d) h)

/-- Up to eight symbols act by xor: running them from `c ^^^ x` is running zeros from `c`,
xored with `x` shifted past them and the symbols read as a base-32 number. -/
theorem foldl_polyModStep_xor (c : Nat) {x : Nat} {ds : List UInt8} (hlen : ds.length ≤ 8)
    (hx : x < 2 ^ (40 - 5 * ds.length)) (hds : ∀ d ∈ ds, d.toNat < 32) :
    ds.foldl polyModStep (c ^^^ x) = (List.replicate ds.length 0).foldl polyModStep c ^^^
      (x * 32 ^ ds.length + beValue 32 (ds.map UInt8.toNat)) := by
  induction ds generalizing c x with
  | nil => simp
  | cons d ds ih =>
    simp only [List.length_cons] at hlen hx
    have hx35 : x < 2 ^ 35 :=
      Nat.lt_of_lt_of_le hx (Nat.pow_le_pow_right (by norm_num) (by omega))
    have hd : d.toNat < 2 ^ 5 := hds d (List.mem_cons_self _ _)
    have hpow : 2 ^ (40 - 5 * ds.length) = 2 ^ (40 - 5 * (ds.length + 1)) * 2 ^ 5 := by
      rw [← Nat.pow_add]; congr 1; omega
    have hx' : x * 2 ^ 5 + d.toNat < 2 ^ (40 - 5 * ds.length) := by
      rw [hpow]
      calc x * 2 ^ 5 + d.toNat < (x + 1) * 2 ^ 5 := by omega
        _ ≤ _ := Nat.mul_le_mul_right _ hx
    have hstep : polyModStep (c ^^^ x) d = polyModStep c 0 ^^^ (x * 2 ^ 5 + d.toNat) := by
      rw [polyModStep_eq_xor, polyModStep_xor_low c hx35, Nat.xor_assoc, shiftLeft_xor_of_lt x hd]
    rw [List.foldl_cons, hstep, ih _ (by omega) hx' fun e he => hds e (List.mem_cons_of_mem _ he),
      List.length_cons, List.replicate_succ, List.foldl_cons, List.map_cons, beValue_cons,
      List.length_map]
    congr 1
    ring

/-- Changing one symbol changes the checksum. -/
theorem polyMod_ne_of_ne (pre post : List UInt8) {a b : UInt8} (hab : a ≠ b) :
    polyMod (pre ++ a :: post) ≠ polyMod (pre ++ b :: post) := by
  intro h
  have hrun : (a :: post).foldl polyModStep (pre.foldl polyModStep 1) =
      (b :: post).foldl polyModStep (pre.foldl polyModStep 1) := by
    simpa only [polyMod, List.foldl_append, Nat.xor_left_inj] using h
  have hlt := foldl_polyModStep_lt (by norm_num : 1 < 2 ^ 40) pre
  have hs := foldl_polyModStep_injective (polyModStep_lt _ a) (polyModStep_lt _ b) post hrun
  rw [polyModStep_eq_xor _ a, polyModStep_eq_xor _ b] at hs
  exact hab (UInt8.toNat.inj (Nat.xor_right_injective hs))

/-- Up to eight symbols below 32 act on the state by xor with their base-32 value. -/
theorem foldl_polyModStep_symbols (c : Nat) {ds : List UInt8} (hlen : ds.length ≤ 8)
    (hds : ∀ d ∈ ds, d.toNat < 32) :
    ds.foldl polyModStep c =
      (List.replicate ds.length 0).foldl polyModStep c ^^^ beValue 32 (ds.map UInt8.toNat) := by
  simpa using foldl_polyModStep_xor c (x := 0) hlen (Nat.two_pow_pos _) hds

/-- From one state, two runs of at most eight symbols of one length end in one state only
when the symbols agree. -/
theorem foldl_polyModStep_burst (c : Nat) {A B : List UInt8} (hlen : A.length = B.length)
    (h8 : A.length ≤ 8) (hA : ∀ d ∈ A, d.toNat < 32) (hB : ∀ d ∈ B, d.toNat < 32)
    (h : A.foldl polyModStep c = B.foldl polyModStep c) : A = B := by
  rw [foldl_polyModStep_symbols c h8 hA, foldl_polyModStep_symbols c (hlen ▸ h8) hB, hlen,
    Nat.xor_right_inj] at h
  have hval := beValue_inj (by simpa using hlen) (by simpa using hA) (by simpa using hB) h
  exact List.map_injective_iff.mpr (fun _ _ => UInt8.toNat.inj) hval

/-- Changing a burst of at most eight symbols below 32 changes the checksum. -/
theorem polyMod_ne_of_burst (pre post : List UInt8) {A B : List UInt8}
    (hlen : A.length = B.length) (h8 : A.length ≤ 8) (hA : ∀ d ∈ A, d.toNat < 32)
    (hB : ∀ d ∈ B, d.toNat < 32) (hAB : A ≠ B) :
    polyMod (pre ++ A ++ post) ≠ polyMod (pre ++ B ++ post) := by
  intro h
  have hpre := foldl_polyModStep_lt (by norm_num : 1 < 2 ^ 40) pre
  simp only [polyMod, List.foldl_append, Nat.xor_left_inj] at h
  exact hAB (foldl_polyModStep_burst _ hlen h8 hA hB (foldl_polyModStep_injective
    (foldl_polyModStep_lt hpre A) (foldl_polyModStep_lt hpre B) post h))

/-- The state after a prefix followed by `k` zero symbols, xored with one, reaches past
`5 * k` bits for every `k < 8`: what no `k` symbols below 32 can cancel. -/
def shortSafe (pfx : List UInt8) : Bool :=
  (List.range 8).all fun k =>
    2 ^ (5 * k) ≤ ((expandPrefix pfx ++ List.replicate k 0).foldl polyModStep 1 ^^^ 1)

theorem verifyChecksum_of_shortSafe {pfx values : List UInt8} (hpfx : shortSafe pfx = true)
    (hlen : values.length < 8) (hv : ∀ d ∈ values, d.toNat < 32) :
    verifyChecksum pfx values = false := by
  have hk := List.all_eq_true.mp hpfx values.length (List.mem_range.mpr hlen)
  have hrun := foldl_polyModStep_xor ((expandPrefix pfx).foldl polyModStep 1)
    (x := 0) (by omega) (Nat.two_pow_pos _) hv
  rw [Nat.xor_zero, Nat.zero_mul, Nat.zero_add] at hrun
  have hval : beValue 32 (values.map UInt8.toNat) < 2 ^ (5 * values.length) := by
    rw [Nat.pow_mul]
    simpa using (beValue_lt (by simpa using hv) : beValue 32 (values.map UInt8.toNat) < _)
  simp only [decide_eq_true_eq, List.foldl_append] at hk
  simp only [verifyChecksum, polyMod, List.foldl_append, hrun, decide_eq_false_iff_not]
  intro h0
  generalize (List.replicate values.length 0).foldl polyModStep
    ((expandPrefix pfx).foldl polyModStep 1) = z at h0 hk
  have hz : beValue 32 (values.map UInt8.toNat) = z ^^^ 1 := by
    rw [← Nat.xor_eq_zero.mp h0, ← Nat.xor_assoc, Nat.xor_self, Nat.zero_xor]
  omega

theorem shortSafe_bitcoincash : shortSafe (ascii "bitcoincash") = true := by decide

theorem shortSafe_bchtest : shortSafe (ascii "bchtest") = true := by decide

/-- Two prefixes that leave the register in different states share no valid data part. -/
theorem verifyChecksum_two_prefixes {p q : List UInt8}
    (hpq : (expandPrefix p).foldl polyModStep 1 ≠ (expandPrefix q).foldl polyModStep 1)
    (values : List UInt8) : ¬ (verifyChecksum p values = true ∧ verifyChecksum q values = true) := by
  rintro ⟨hp, hq⟩
  simp only [verifyChecksum, polyMod, List.foldl_append, decide_eq_true_eq] at hp hq
  refine hpq (foldl_polyModStep_injective (foldl_polyModStep_lt (by norm_num) _)
    (foldl_polyModStep_lt (by norm_num) _) values ?_)
  rw [Nat.xor_eq_zero.mp hp, Nat.xor_eq_zero.mp hq]

theorem expandPrefix_bitcoincash_bchtest :
    (expandPrefix (ascii "bitcoincash")).foldl polyModStep 1 ≠
      (expandPrefix (ascii "bchtest")).foldl polyModStep 1 := by
  decide

end AddressUtil.Bchutil
