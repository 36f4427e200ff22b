import Mathlib
import Varlet.Number.Binary

namespace Varlet.Number

section Fields

open Float.Model Float.Model.UnpackedFloat

lemma toBitVec_ofBitVec (b : BitVec 1) : (Sign.ofBitVec b).toBitVec = b := by
  rw [Sign.ofBitVec]
  split_ifs with h
  · exact h.symm
  · exact (BitVec.eq_zero_or_eq_one b |>.resolve_left h).symm

lemma packComponents_unpack {format : Float.Model.Format} (b : BitVec format.numBits) :
    packComponents format (.ofBitVec (unpackSign b)) (unpackExponent b) (unpackMantissa b) = b := by
  ext i hi
  simp only [packComponents, toBitVec_ofBitVec, BitVec.getElem_append]
  split_ifs with hm he
  · simp [unpackMantissa, BitVec.getLsbD_eq_getElem hi]
  · have hindex : format.mantissaBitsWithoutImplicit +
        (i - format.mantissaBitsWithoutImplicit) = i := by
      omega
    simp [unpackExponent, hindex, BitVec.getLsbD_eq_getElem hi]
  · have hindex : format.mantissaBitsWithoutImplicit + format.exponentBits +
        (i - format.mantissaBitsWithoutImplicit - format.exponentBits) = i := by
      omega
    simp [unpackSign, hindex, BitVec.getLsbD_eq_getElem hi]

lemma pack_finite (s : Sign) (m : ℕ) (e : ℤ) (hm : 0 < m) :
    UnpackedFloat.pack .binary64 (.finite s m e hm) =
      if 2 ^ 11 ≤ (e + 1023 + 52).toNat + 1 then packedInfinity .binary64 s
      else if m.log2 + 1 = 53 then
        packComponents .binary64 s (.ofNat 11 (e + 1023 + 52).toNat) (.ofNat 52 m)
      else packComponents .binary64 s (0 : BitVec 11) (.ofNat 52 m) := rfl

lemma pack_normal (s : Sign) {e : BitVec 11} {m : BitVec 52} (he : e.toNat < 2047)
    (hm : 0 < (1#1 ++ m).toNat) :
    UnpackedFloat.pack .binary64 (.finite s (1#1 ++ m).toNat (e.toNat - (1023 + 52)) hm) =
      packComponents .binary64 s e m := by
  have hnat : (1#1 ++ m).toNat = 2 ^ 52 + m.toNat := by
    rw [BitVec.toNat_append, Nat.shiftLeft_eq, Nat.mul_comm, ← Nat.two_pow_add_eq_or_of_lt m.isLt]
    simp
  have hlog : (1#1 ++ m).toNat.log2 = 52 := by
    rw [hnat, Nat.log2_eq_iff (by omega)]
    omega
  have hexponent : ((e.toNat : ℤ) - (1023 + 52) + 1023 + 52).toNat = e.toNat := by omega
  have hmantissa : BitVec.ofNat 52 (2 ^ 52 + m.toNat) = m := by
    apply BitVec.eq_of_toNat_eq
    rw [BitVec.toNat_ofNat, Nat.add_mod_left, Nat.mod_eq_of_lt m.isLt]
  rw [pack_finite, hexponent, if_neg (by omega), if_pos (by rw [hlog]), hnat, hmantissa,
    BitVec.ofNat_toNat, BitVec.setWidth_eq]

lemma pack_subnormal (s : Sign) {m : BitVec 52} (hm : 0 < m.toNat) :
    UnpackedFloat.pack .binary64 (.finite s m.toNat (0 - (1023 + 52) + 1) hm) =
      packComponents .binary64 s (0 : BitVec 11) m := by
  have hlog := (Nat.log2_lt hm.ne').mpr m.isLt
  rw [pack_finite, if_neg (by norm_num), if_neg (by omega), BitVec.ofNat_toNat, BitVec.setWidth_eq]

lemma pack_unpack {b : BitVec Float.Model.Format.binary64.numBits}
    (h : Float.Model.Format.binary64.Valid b) :
    UnpackedFloat.pack .binary64 (UnpackedFloat.unpack .binary64 b) = b := by
  have hb := packComponents_unpack b
  rw [UnpackedFloat.unpack]
  dsimp only
  split_ifs with hmax hzero hmin hzero
  · rw [hmax, hzero] at hb
    exact hb
  · exact (h.eq_packedNaN hmax hzero).symm
  · rw [hmin, hzero] at hb
    exact hb
  · rw [hmin] at hb ⊢
    exact (pack_subnormal _ _).trans hb
  · have hlt : (unpackExponent b).toNat < 2047 := by
      have hne : (unpackExponent b).toNat ≠ 2047 := fun heq => hmax (BitVec.eq_of_toNat_eq heq)
      have hexponent : (unpackExponent b).toNat < 2 ^ 11 := (unpackExponent b).isLt
      omega
    exact (pack_normal _ hlt _).trans hb

lemma ofBits_toBits (x : Float) : Float.ofBits x.toBits = x := by
  have h := pack_unpack x.toModel.valid
  rw [Float.ofBits, Float.toBits, Float.Model.ofBits, Float.Model.pack]
  simp [h]

end Fields

lemma roundDiv_mul {den : ℕ} (hd : 0 < den) (n : ℕ) : roundDiv (n * den) den = n := by
  simp [roundDiv, Nat.mul_div_cancel _ hd, hd]

lemma nearestBits_of_lt {n : ℕ} (h : n < 2 ^ 52) : nearestBits n 1 = n := by
  have hlog : n.log2 - 52 = 0 := by
    rcases Nat.eq_zero_or_pos n with rfl | hpos
    · simp
    · have hlt := (Nat.log2_lt hpos.ne').mpr h
      omega
  have hround := roundDiv_mul Nat.one_pos n
  rw [Nat.mul_one] at hround
  simp only [nearestBits, Nat.div_one, hlog, infinityBits, Nat.pow_eq, Nat.zero_mul, Nat.zero_add,
    pow_zero, Nat.mul_one, hround]
  omega

lemma nearestBits_scaled {fraction places : ℕ} (hf : fraction < 2 ^ 52) (hp : places < 2046) :
    nearestBits ((2 ^ 52 + fraction) * 2 ^ places) 1 = (places + 1) * 2 ^ 52 + fraction := by
  have hlog : ((2 ^ 52 + fraction) * 2 ^ places).log2 = 52 + places := by
    rw [Nat.log2_eq_iff (by positivity)]
    constructor
    · rw [pow_add]
      gcongr
      omega
    · rw [Nat.add_right_comm, pow_add]
      gcongr
      omega
  have hround := roundDiv_mul (Nat.two_pow_pos places) (2 ^ 52 + fraction)
  simp only [nearestBits, Nat.div_one, hlog, Nat.add_sub_cancel_left, infinityBits, Nat.pow_eq,
    Nat.one_mul, hround]
  omega

lemma nearestBits_of_finite {bits steps : ℕ} (h : Form.ofBits bits = .finite false steps) :
    nearestBits steps 1 = bits := by
  simp only [Form.ofBits, Nat.pow_eq] at h
  split_ifs at h with hmax hzero hmin
  · obtain ⟨hsign, rfl⟩ := Form.finite.inj h
    rw [decide_eq_false_iff_not] at hsign
    rw [nearestBits_of_lt (Nat.mod_lt _ (by norm_num))]
    omega
  · obtain ⟨hsign, rfl⟩ := Form.finite.inj h
    rw [decide_eq_false_iff_not] at hsign
    rw [nearestBits_scaled (Nat.mod_lt _ (by norm_num)) (by omega)]
    omega

end Varlet.Number
