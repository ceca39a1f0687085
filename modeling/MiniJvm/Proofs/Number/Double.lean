import Mathlib
import MiniJvm.Number.Double

/-!
# Doubles and narrower formats

A bit pattern is a sign, a stored exponent and a fraction. Every pattern but a NaN's is written
again as it was read. A value has many magnitudes and exponents; what a format makes of it does
not depend on which of them are given, so a value that was written in one format and read back is
written by any other format as before. A double that a narrower format holds therefore comes back
from it bit by bit.
-/

namespace MiniJvm

theorem pow2_eq (k : Nat) : pow2 k = 2 ^ k := rfl

namespace Binary.Format

/-- The format has room for infinities and NaNs. -/
structure Proper (f : Format) : Prop where
  exponent : 2 ≤ f.exponentBits
  fraction : 1 ≤ f.fractionBits

theorem proper_half : half.Proper := ⟨by decide, by decide⟩

theorem proper_single : single.Proper := ⟨by decide, by decide⟩

theorem proper_double : double.Proper := ⟨by decide, by decide⟩

/-! ## The fields of a pattern -/

/-- The bits of the three fields. -/
def pattern (f : Format) (negative : Bool) (stored fraction : Nat) : Nat :=
  f.withSign negative (stored * pow2 f.fractionBits + fraction)

/-- What the three fields stand for. -/
def ofFields (f : Format) (negative : Bool) (stored fraction : Nat) : Value :=
  if stored = f.topExponent then if fraction = 0 then .infinite negative else .nan
  else if stored = 0 then .finite negative fraction f.leastExponent
  else .finite negative (pow2 f.fractionBits + fraction) (f.leastExponent + (stored - 1 : Nat))

section Fields

variable {f : Format} {negative : Bool} {stored fraction : Nat}

theorem magnitude_lt (hs : stored < 2 ^ f.exponentBits) (hf : fraction < 2 ^ f.fractionBits) :
    stored * 2 ^ f.fractionBits + fraction < 2 ^ (f.fractionBits + f.exponentBits) :=
  calc stored * 2 ^ f.fractionBits + fraction
      < (stored + 1) * 2 ^ f.fractionBits := by rw [Nat.succ_mul]; omega
    _ ≤ 2 ^ f.exponentBits * 2 ^ f.fractionBits := Nat.mul_le_mul_right _ hs
    _ = 2 ^ (f.fractionBits + f.exponentBits) := by rw [← Nat.pow_add, Nat.add_comm]

theorem pattern_lt (hs : stored < 2 ^ f.exponentBits) (hf : fraction < 2 ^ f.fractionBits) :
    f.pattern negative stored fraction < 2 ^ (f.fractionBits + f.exponentBits + 1) := by
  have := magnitude_lt hs hf
  rw [Nat.pow_succ]
  cases negative <;>
    simp only [pattern, withSign, pow2_eq, if_true, Bool.false_eq_true, if_false] <;> omega

theorem decode_pattern (hs : stored < 2 ^ f.exponentBits) (hf : fraction < 2 ^ f.fractionBits) :
    f.decode (f.pattern negative stored fraction) = f.ofFields negative stored fraction := by
  have hlt := magnitude_lt hs hf
  have hpattern : f.pattern negative stored fraction =
      2 ^ f.fractionBits * (2 ^ f.exponentBits * negative.toNat + stored) + fraction := by
    cases negative <;> simp [pattern, withSign, pow2_eq, Nat.pow_add] <;> ring
  have hfraction : f.pattern negative stored fraction % 2 ^ f.fractionBits = fraction := by
    rw [hpattern, Nat.mul_add_mod, Nat.mod_eq_of_lt hf]
  have hhigh : f.pattern negative stored fraction / 2 ^ f.fractionBits =
      2 ^ f.exponentBits * negative.toNat + stored := by
    rw [hpattern, Nat.mul_add_div (Nat.two_pow_pos _), Nat.div_eq_of_lt hf, Nat.add_zero]
  have hstored : f.pattern negative stored fraction / 2 ^ f.fractionBits % 2 ^ f.exponentBits =
      stored := by
    rw [hhigh, Nat.mul_add_mod, Nat.mod_eq_of_lt hs]
  have hsign : f.pattern negative stored fraction / 2 ^ (f.fractionBits + f.exponentBits) % 2 =
      negative.toNat := by
    rw [Nat.pow_add, ← Nat.div_div_eq_div_mul, hhigh, Nat.mul_add_div (Nat.two_pow_pos _),
      Nat.div_eq_of_lt hs]
    cases negative <;> rfl
  unfold decode
  simp only [pow2_eq, hfraction, hstored, hsign, ofFields]
  cases negative <;> rfl

/-- Every bit pattern of the format's width has its fields. -/
theorem exists_pattern {bits : Nat} (h : bits < 2 ^ (f.fractionBits + f.exponentBits + 1)) :
    ∃ negative stored fraction, stored < 2 ^ f.exponentBits ∧ fraction < 2 ^ f.fractionBits ∧
      bits = f.pattern negative stored fraction := by
  let magnitude := bits % 2 ^ (f.fractionBits + f.exponentBits)
  have hmagnitude : magnitude < 2 ^ f.fractionBits * 2 ^ f.exponentBits := by
    rw [← Nat.pow_add]
    exact Nat.mod_lt _ (Nat.two_pow_pos _)
  refine ⟨decide (2 ^ (f.fractionBits + f.exponentBits) ≤ bits), magnitude / 2 ^ f.fractionBits,
    magnitude % 2 ^ f.fractionBits, Nat.div_lt_of_lt_mul hmagnitude,
    Nat.mod_lt _ (Nat.two_pow_pos _), ?_⟩
  unfold pattern withSign
  rw [pow2_eq, pow2_eq, Nat.div_add_mod']
  rw [Nat.pow_succ] at h
  by_cases hsign : 2 ^ (f.fractionBits + f.exponentBits) ≤ bits
  · rw [if_pos (decide_eq_true hsign)]
    simp only [magnitude]
    rw [Nat.mod_eq_sub_mod hsign, Nat.mod_eq_of_lt (by omega)]
    omega
  · rw [if_neg (by simpa using hsign)]
    exact (Nat.mod_eq_of_lt (by omega)).symm

end Fields

/-! ## Magnitudes and exponents of one value -/

theorem log2_mul_two_pow {m : Nat} (hm : m ≠ 0) (k : Nat) : (m * 2 ^ k).log2 = m.log2 + k := by
  rw [Nat.log2_eq_iff (Nat.mul_ne_zero hm (Nat.two_pow_pos k).ne'), Nat.add_right_comm,
    Nat.pow_add, Nat.pow_add 2 (m.log2 + 1)]
  exact ⟨Nat.mul_le_mul_right _ (Nat.log2_self_le hm),
    Nat.mul_lt_mul_of_pos_right Nat.lt_log2_self (Nat.two_pow_pos k)⟩

theorem exactShift?_eq_some_iff {m r : Nat} {j : Int} :
    exactShift? m j = some r ↔ m * 2 ^ j.toNat = r * 2 ^ (-j).toNat := by
  cases j with
  | ofNat k => simp [exactShift?, pow2_eq]
  | negSucc k =>
    have hpos : 0 < pow2 (k + 1) := Nat.two_pow_pos _
    simp only [Int.toNat_negSucc, Int.neg_negSucc, Int.toNat_natCast, Nat.pow_zero, Nat.mul_one,
      ← pow2_eq]
    by_cases hdvd : m % pow2 (k + 1) = 0
    · rw [exactShift?, if_pos hdvd, Option.some.injEq,
        Nat.div_eq_iff_eq_mul_left hpos (Nat.dvd_of_mod_eq_zero hdvd)]
    · rw [exactShift?, if_neg hdvd]
      refine iff_of_false nofun ?_
      rintro rfl
      exact hdvd (Nat.mul_mod_left _ _)

/-- Moving a power of two from the magnitude to the exponent changes no shift. -/
theorem exactShift?_shift (m k : Nat) (j : Int) :
    exactShift? (m * 2 ^ k) (j - k) = exactShift? m j := by
  ext r
  rw [exactShift?_eq_some_iff, exactShift?_eq_some_iff]
  have hsum : k + (j - k).toNat + (-j).toNat = j.toNat + (-(j - k)).toNat := by omega
  calc m * 2 ^ k * 2 ^ (j - k).toNat = r * 2 ^ (-(j - k)).toNat
      ↔ m * 2 ^ k * 2 ^ (j - k).toNat * 2 ^ (-j).toNat =
          r * 2 ^ (-(j - k)).toNat * 2 ^ (-j).toNat :=
        (Nat.mul_left_inj (Nat.two_pow_pos _).ne').symm
    _ ↔ m * 2 ^ j.toNat * 2 ^ (-(j - k)).toNat =
          r * 2 ^ (-j).toNat * 2 ^ (-(j - k)).toNat := by
        rw [Nat.mul_assoc m, ← Nat.pow_add, Nat.mul_assoc m, ← Nat.pow_add, hsum, Nat.pow_add,
          ← Nat.mul_assoc, Nat.mul_right_comm r]
    _ ↔ m * 2 ^ j.toNat = r * 2 ^ (-j).toNat := Nat.mul_left_inj (Nat.two_pow_pos _).ne'

theorem encode?_shift (g : Format) (negative : Bool) (m k : Nat) (e : Int) :
    g.encode? (.finite negative (m * 2 ^ k) (e - k)) = g.encode? (.finite negative m e) := by
  by_cases hm : m = 0
  · simp [encode?, hm]
  · have hleading : e - k + ((m * 2 ^ k).log2 : Int) = e + (m.log2 : Int) := by
      rw [log2_mul_two_pow hm]
      omega
    have hshift (last : Int) :
        exactShift? (m * 2 ^ k) (e - k - last) = exactShift? m (e - last) := by
      rw [← exactShift?_shift m k, sub_right_comm]
    have hk : m * 2 ^ k ≠ 0 := Nat.mul_ne_zero hm (Nat.two_pow_pos k).ne'
    simp only [encode?, hm, hk, if_false, hleading, hshift]

/-- What was shifted exactly is the same value. -/
theorem encode?_of_exactShift? {m r : Nat} {e last : Int} (h : exactShift? m (e - last) = some r)
    (g : Format) (negative : Bool) :
    g.encode? (.finite negative r last) = g.encode? (.finite negative m e) := by
  rw [exactShift?_eq_some_iff] at h
  have hexponent : last - ((-(e - last)).toNat : Int) = e - ((e - last).toNat : Int) := by omega
  rw [← encode?_shift g negative r (-(e - last)).toNat, ← h, hexponent, encode?_shift]

theorem log2_of_exactShift? {m r : Nat} {j : Int} (hm : m ≠ 0) (h : exactShift? m j = some r) :
    r ≠ 0 ∧ (r.log2 : Int) = m.log2 + j := by
  rw [exactShift?_eq_some_iff] at h
  have hr : r ≠ 0 := by
    rintro rfl
    rw [Nat.zero_mul] at h
    exact Nat.mul_ne_zero hm (Nat.two_pow_pos _).ne' h
  have hlog := congrArg Nat.log2 h
  rw [log2_mul_two_pow hm, log2_mul_two_pow hr] at hlog
  exact ⟨hr, by omega⟩

/-! ## Writing and reading -/

section Proper

variable {f : Format}

theorem Proper.two_pow_exponentBits (hf : f.Proper) : 2 ^ f.exponentBits = 2 * f.bias + 2 := by
  have hsucc : f.exponentBits = f.exponentBits - 1 + 1 := by have := hf.exponent; omega
  have := Nat.two_pow_pos (f.exponentBits - 1)
  rw [hsucc, Nat.pow_succ, bias, pow2_eq]
  omega

theorem Proper.topExponent_eq (hf : f.Proper) : f.topExponent = 2 * f.bias + 1 := by
  rw [topExponent, pow2_eq, hf.two_pow_exponentBits]
  rfl

theorem Proper.half_fraction_lt (hf : f.Proper) :
    2 ^ (f.fractionBits - 1) < 2 ^ f.fractionBits :=
  Nat.pow_lt_pow_right (by decide) (by have := hf.fraction; omega)

/-- The exponent of a finite value is that of the last place which the format keeps of it. -/
structure Aligned (f : Format) (m : Nat) (e : Int) : Prop where
  ne_zero : m ≠ 0
  leading : e + (m.log2 : Int) ≤ f.bias
  last : max (e + (m.log2 : Int) - f.fractionBits) f.leastExponent = e

/-- An aligned value is written as it stands. The leading bit is not stored, unless the exponent is
the least. -/
theorem encode?_of_aligned {m : Nat} {e : Int} (h : f.Aligned m e) (negative : Bool) :
    f.encode? (.finite negative m e) =
      some (if m < pow2 f.fractionBits then f.withSign negative m
        else f.pattern negative (e + (m.log2 : Int) + f.bias).toNat (m - pow2 f.fractionBits)) := by
  have hshift : exactShift? m (e - e) = some m := by
    rw [exactShift?_eq_some_iff, Int.sub_self]
    rfl
  simp only [encode?, h.ne_zero, if_false, h.last, hshift, if_neg (Int.not_lt.2 h.leading)]
  split <;> rfl

theorem exists_aligned {negative : Bool} {m bits : Nat} {e : Int} (hm : m ≠ 0)
    (h : f.encode? (.finite negative m e) = some bits) :
    ∃ r last, f.Aligned r last ∧
      ∀ g : Format, g.encode? (.finite negative r last) = g.encode? (.finite negative m e) := by
  simp only [encode?, hm, if_false] at h
  split at h
  · cases h
  rename_i hleading
  split at h
  · cases h
  rename_i r hshift
  obtain ⟨hr, hlog⟩ := log2_of_exactShift? hm hshift
  exact ⟨r, _, ⟨hr, by omega, by omega⟩, fun g => encode?_of_exactShift? hshift g negative⟩

theorem encode?_finite_eq_some (hf : f.Proper) {negative : Bool} {m bits : Nat} {e : Int}
    (hm : m ≠ 0) (h : f.encode? (.finite negative m e) = some bits) :
    ∃ stored fraction, stored < 2 ^ f.exponentBits ∧ fraction < 2 ^ f.fractionBits ∧
      bits = f.pattern negative stored fraction ∧
      ∀ g : Format, g.encode? (f.ofFields negative stored fraction) =
        g.encode? (.finite negative m e) := by
  have htop := hf.topExponent_eq
  have hwidth := hf.two_pow_exponentBits
  have hexponent : f.leastExponent = 1 - (f.bias : Int) - (f.fractionBits : Int) := rfl
  obtain ⟨r, last, haligned, hsame⟩ := exists_aligned hm h
  have hleading := haligned.leading
  have hlast := haligned.last
  rw [← hsame f, encode?_of_aligned haligned, Option.some.injEq] at h
  by_cases hlt : r < pow2 f.fractionBits
  -- A magnitude with fewer bits than the fraction belongs to the least exponent.
  · rw [if_pos hlt] at h
    have hbits := (Nat.log2_lt haligned.ne_zero).2 hlt
    have hleast : f.leastExponent = last := by omega
    refine ⟨0, r, by omega, hlt, by rw [← h, pattern, Nat.zero_mul, Nat.zero_add], fun g => ?_⟩
    rw [ofFields, if_neg (by omega), if_pos rfl, hleast, hsame]
  · rw [if_neg hlt] at h
    rw [pow2_eq, Nat.not_lt] at hlt
    have hbits := (Nat.le_log2 haligned.ne_zero).2 hlt
    have hlog : r.log2 = f.fractionBits := by omega
    have hhigh : r < 2 ^ (f.fractionBits + 1) := hlog ▸ Nat.lt_log2_self
    rw [Nat.pow_succ] at hhigh
    refine ⟨(last + (r.log2 : Int) + f.bias).toNat, r - 2 ^ f.fractionBits, by omega, by omega,
      h.symm, fun g => ?_⟩
    have hfields : f.ofFields negative (last + (r.log2 : Int) + f.bias).toNat
        (r - 2 ^ f.fractionBits) = .finite negative r last := by
      rw [ofFields, if_neg (by omega), if_neg (by omega), pow2_eq, Nat.add_sub_cancel' hlt]
      congr 1
      omega
    rw [hfields, hsame]

/-- The fields of what a format writes. They stand for the value that was written. -/
theorem encode?_eq_some (hf : f.Proper) {v : Value} {bits : Nat} (h : f.encode? v = some bits) :
    ∃ negative stored fraction, stored < 2 ^ f.exponentBits ∧ fraction < 2 ^ f.fractionBits ∧
      bits = f.pattern negative stored fraction ∧
      ∀ g : Format, g.encode? (f.ofFields negative stored fraction) = g.encode? v := by
  have htop : f.topExponent < 2 ^ f.exponentBits := by
    rw [hf.topExponent_eq, hf.two_pow_exponentBits]
    omega
  have hpos := Nat.two_pow_pos f.fractionBits
  cases v with
  | nan =>
    simp only [encode?, Option.some.injEq] at h
    have hne := (Nat.two_pow_pos (f.fractionBits - 1)).ne'
    refine ⟨false, f.topExponent, 2 ^ (f.fractionBits - 1), htop, hf.half_fraction_lt,
      h.symm, fun g => ?_⟩
    rw [ofFields, if_pos rfl, if_neg hne]
  | infinite negative =>
    simp only [encode?, Option.some.injEq] at h
    refine ⟨negative, f.topExponent, 0, htop, hpos, h.symm, fun g => ?_⟩
    rw [ofFields, if_pos rfl, if_pos rfl]
  | finite negative m e =>
    by_cases hm : m = 0
    · simp only [encode?, hm, if_true, Option.some.injEq] at h
      refine ⟨negative, 0, 0, Nat.two_pow_pos _, hpos, ?_, fun g => ?_⟩
      · rw [← h, pattern, Nat.zero_mul]
      · have := hf.topExponent_eq
        rw [ofFields, if_neg (by omega), if_pos rfl, hm]
        rfl
    · exact ⟨negative, encode?_finite_eq_some hf hm h⟩

theorem encode?_lt (hf : f.Proper) {v : Value} {bits : Nat} (h : f.encode? v = some bits) :
    bits < 2 ^ (f.fractionBits + f.exponentBits + 1) := by
  obtain ⟨negative, stored, fraction, hs, hfr, rfl, -⟩ := encode?_eq_some hf h
  exact pattern_lt hs hfr

/-- A value that one format wrote is written as before once it was read back. -/
theorem encode?_decode_of_encode? (hf : f.Proper) {v : Value} {bits : Nat}
    (h : f.encode? v = some bits) (g : Format) : g.encode? (f.decode bits) = g.encode? v := by
  obtain ⟨negative, stored, fraction, hs, hfr, rfl, hsame⟩ := encode?_eq_some hf h
  rw [decode_pattern hs hfr, hsame]

theorem encode?_ofFields (hf : f.Proper) {negative : Bool} {stored fraction : Nat}
    (hs : stored < 2 ^ f.exponentBits) (hfr : fraction < 2 ^ f.fractionBits)
    (hnan : f.ofFields negative stored fraction ≠ .nan) :
    f.encode? (f.ofFields negative stored fraction) =
      some (f.pattern negative stored fraction) := by
  have htop := hf.topExponent_eq
  have hwidth := hf.two_pow_exponentBits
  have hexponent : f.leastExponent = 1 - (f.bias : Int) - (f.fractionBits : Int) := rfl
  unfold ofFields at hnan ⊢
  split at hnan
  · split at hnan
    · rename_i hstored hzero
      rw [if_pos hstored, if_pos hzero, hstored, hzero]
      rfl
    · exact absurd rfl hnan
  rename_i hstored
  rw [if_neg hstored]
  by_cases hleast : stored = 0
  · rw [if_pos hleast, hleast, pattern, Nat.zero_mul, Nat.zero_add]
    by_cases hzero : fraction = 0
    · rw [hzero, encode?, if_pos rfl]
    · have hbits := (Nat.log2_lt hzero).2 hfr
      have haligned : f.Aligned fraction f.leastExponent := ⟨hzero, by omega, by omega⟩
      rw [encode?_of_aligned haligned, pow2_eq, if_pos hfr]
  · have hpos := Nat.two_pow_pos f.fractionBits
    have hne : pow2 f.fractionBits + fraction ≠ 0 := by
      rw [pow2_eq]
      omega
    have hlog : (pow2 f.fractionBits + fraction).log2 = f.fractionBits := by
      rw [Nat.log2_eq_iff hne, pow2_eq, Nat.pow_succ]
      omega
    have haligned : f.Aligned (pow2 f.fractionBits + fraction)
        (f.leastExponent + (stored - 1 : Nat)) := ⟨hne, by omega, by omega⟩
    have hstored' : (f.leastExponent + (stored - 1 : Nat) + (f.fractionBits : Int) + f.bias).toNat =
        stored := by omega
    rw [if_neg hleast, encode?_of_aligned haligned, if_neg (by omega), hlog, hstored',
      Nat.add_sub_cancel_left]

/-- Every bit pattern that is no NaN is written again as it was read. -/
theorem encode?_decode (hf : f.Proper) {bits : Nat}
    (h : bits < 2 ^ (f.fractionBits + f.exponentBits + 1)) (hnan : f.decode bits ≠ .nan) :
    f.encode? (f.decode bits) = some bits := by
  obtain ⟨negative, stored, fraction, hs, hfr, rfl⟩ := exists_pattern h
  rw [decode_pattern hs hfr] at hnan ⊢
  exact encode?_ofFields hf hs hfr hnan

end Proper

end Binary.Format

namespace Double

open Binary

theorem encode?_value {d : Double} (h : d.isNaN = false) :
    Format.double.encode? d.value = some d.bits.toNat :=
  Format.encode?_decode Format.proper_double d.bits.toNat_lt (of_decide_eq_false h)

/-- The double with one NaN for all. -/
def quieted (d : Double) : Double := if d.isNaN then nan else d

/-- A narrower format gives a double back bit by bit, and of NaNs the one. -/
theorem widen_of_narrow? {f : Format} (hf : f.Proper) {d : Double} {bits : Nat}
    (h : d.narrow? f = some bits) : widen f bits = d.quieted := by
  have hsame := Format.encode?_decode_of_encode? hf h .double
  cases hnan : d.isNaN with
  | true =>
    have hvalue : d.value = .nan := of_decide_eq_true hnan
    rw [hvalue] at hsame
    rw [widen, hsame, quieted, if_pos hnan]
    decide +kernel
  | false =>
    rw [encode?_value hnan] at hsame
    rw [widen, hsame, quieted, if_neg (by simp [hnan])]
    simp

/-- All NaNs are one in the narrowest format. -/
theorem narrow?_half_of_isNaN {d : Double} (h : d.isNaN = true) :
    d.narrow? .half = some 0x7E00 := by
  have hvalue : d.value = .nan := of_decide_eq_true h
  rw [narrow?, hvalue]
  rfl

theorem quieted_of_narrow?_half {d : Double} (h : d.narrow? .half = none) : d.quieted = d := by
  refine if_neg fun hnan => ?_
  rw [narrow?_half_of_isNaN hnan] at h
  cases h

theorem isNaN_of_isZero {d : Double} (h : d.isZero = true) : d.isNaN = false := by
  have hbits : d = ⟨0⟩ ∨ d = ⟨0x8000000000000000⟩ := by
    cases d
    simpa [isZero] using h
  rcases hbits with rfl | rfl <;> decide +kernel

def normal (d : Double) : Double := if d.isNaN then nan else if d.isZero then zero else d

theorem normal_of_isZero {d : Double} (h : d.isZero = true) : d.normal = zero := by
  rw [normal, isNaN_of_isZero h, if_neg Bool.false_ne_true, if_pos h]

theorem normal_of_isZero_eq_false {d : Double} (h : d.isZero = false) : d.normal = d.quieted := by
  rw [normal, h, if_neg Bool.false_ne_true]
  rfl

@[simp] theorem isZero_normal (d : Double) : d.normal.isZero = d.isZero := by
  cases h : d.isZero with
  | true =>
    rw [normal_of_isZero h]
    rfl
  | false =>
    rw [normal_of_isZero_eq_false h, quieted]
    split
    · rfl
    · exact h

theorem quieted_normal (d : Double) : d.normal.quieted = d.normal := by
  cases hzero : d.isZero with
  | true =>
    rw [normal_of_isZero hzero]
    decide +kernel
  | false =>
    rw [normal_of_isZero_eq_false hzero]
    by_cases hnan : d.isNaN
    · have hquiet : d.quieted = nan := if_pos hnan
      rw [hquiet]
      decide +kernel
    · have hsame : d.quieted = d := if_neg hnan
      rw [hsame, hsame]

end Double

end MiniJvm
