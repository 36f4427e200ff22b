import Varlet.Proofs.Numbers.Written
import Varlet.Proofs.Parsing.RoundTrip

/-! Whole numbers and their digits. The shortest decimal of a whole number has no fraction, so the
number is written as a numeral. -/

namespace Varlet.Number

namespace Decimal

lemma exponent_le_trim (d : Decimal) : d.exponent ≤ d.trim.exponent := by
  obtain ⟨k, -, he, -⟩ := d.trim_eq
  omega

def ReadsWhole (d : Decimal) (steps : ℕ) : Prop :=
  0 ≤ d.exponent ∧ d.bits = nearestBits steps 1

lemma mem_neighbours {scaled drop : ℕ} {d : Decimal} : d ∈ neighbours scaled drop ↔
    d = trim ⟨scaled / 10 ^ drop, drop - 1074⟩ ∨
      d = trim ⟨scaled / 10 ^ drop + 1, drop - 1074⟩ := by
  rw [neighbours]
  split_ifs
  · simp
  · simp [or_comm]

lemma exponent_of_mem_neighbours {scaled drop : ℕ} {d : Decimal} (hd : 1074 ≤ drop)
    (h : d ∈ neighbours scaled drop) : 0 ≤ d.exponent := by
  have hbound (c : ℕ) : 0 ≤ (trim ⟨c, drop - 1074⟩).exponent := by
    have hle : (drop : ℤ) - 1074 ≤ (trim ⟨c, drop - 1074⟩).exponent := exponent_le_trim _
    omega
  rcases mem_neighbours.mp h with rfl | rfl
  · exact hbound _
  · exact hbound _

lemma trim_of_whole {n : ℕ} (hn : n ≠ 0) (places : ℕ) : ∃ k : ℕ,
    (trim ⟨n * 10 ^ places, -places⟩).exponent = k ∧
      (trim ⟨n * 10 ^ places, -places⟩).coefficient * 10 ^ k = n := by
  obtain ⟨k, hc, he, hmod⟩ := trim_eq ⟨n * 10 ^ places, -places⟩
  generalize trim ⟨n * 10 ^ places, -places⟩ = d at hc he hmod ⊢
  dsimp only at hc he hmod
  have hle : places ≤ k := by
    by_contra hlt
    obtain ⟨j, rfl⟩ : ∃ j, places = k + (j + 1) := ⟨places - k - 1, by omega⟩
    apply hmod (by positivity)
    rw [pow_add, ← mul_assoc, mul_right_comm] at hc
    rw [← Nat.eq_of_mul_eq_mul_right (by positivity) hc, pow_succ, ← mul_assoc, Nat.mul_mod_left]
  obtain ⟨j, rfl⟩ := Nat.exists_eq_add_of_le hle
  refine ⟨j, by omega, ?_⟩
  rw [Nat.add_comm, pow_add, ← mul_assoc] at hc
  exact (Nat.eq_of_mul_eq_mul_right (by positivity) hc).symm

lemma le_log2_of_ten_pow {n : ℕ} (hn : n ≠ 0) (q : ℕ) :
    93 * q + 33 ≤ (n * 10 ^ (28 * q + 10)).log2 := by
  rw [Nat.le_log2 (by positivity)]
  calc 2 ^ (93 * q + 33) = (2 ^ 93) ^ q * 2 ^ 33 := by rw [pow_add, pow_mul]
    _ ≤ (10 ^ 28) ^ q * 10 ^ 10 :=
      Nat.mul_le_mul (Nat.pow_le_pow_left (by norm_num) q) (by norm_num)
    _ = 10 ^ (28 * q + 10) := by rw [pow_add, pow_mul]
    _ ≤ n * 10 ^ (28 * q + 10) := Nat.le_mul_of_pos_left _ (Nat.pos_of_ne_zero hn)

section

variable {places n : ℕ} (hp : places = 1074)

include hp

lemma readsWhole_trim (hn : n ≠ 0) (zeros : ℕ) :
    (trim ⟨n * 10 ^ zeros, -zeros⟩).ReadsWhole (n * 2 ^ places) := by
  obtain ⟨k, hexponent, hcoefficient⟩ := trim_of_whole hn zeros
  refine ⟨hexponent ▸ Int.natCast_nonneg k, ?_⟩
  rw [bits_of_exponent hp hexponent, hcoefficient]

lemma exists_mem_neighbours (hn : n ≠ 0) :
    ∃ d ∈ neighbours (n * 10 ^ places) places, d.ReadsWhole (n * 2 ^ places) := by
  refine ⟨_, mem_neighbours.mpr (.inl rfl), ?_⟩
  have hexponent : (places : ℤ) - 1074 = -(0 : ℕ) := by omega
  rw [Nat.mul_div_cancel n (by positivity), hexponent]
  simpa using readsWhole_trim hp hn 0

lemma readsWhole_search (hn : n ≠ 0) {drop : ℕ} (hd : places ≤ drop) (tries : ℕ) :
    (search (nearestBits (n * 2 ^ places) 1) (n * 10 ^ places) drop tries).ReadsWhole
      (n * 2 ^ places) := by
  induction tries generalizing drop with
  | zero =>
    have hexponent : (-1074 : ℤ) = -places := by omega
    rw [search, hexponent]
    exact readsWhole_trim hp hn places
  | succ tries ih =>
    rw [search]
    split
    · next d hfind =>
      have hbits := List.find?_some hfind
      exact ⟨exponent_of_mem_neighbours (hp ▸ hd) (List.mem_of_find?_eq_some hfind),
        of_decide_eq_true hbits⟩
    · next hnone =>
      rcases hd.eq_or_lt with rfl | hlt
      · obtain ⟨d, hmem, hd⟩ := exists_mem_neighbours hp hn
        exact absurd (decide_eq_true hd.2) (List.find?_eq_none.mp hnone d hmem)
      · exact ih (by omega)

lemma readsWhole_shortest (n : ℕ) : (shortest (n * 2 ^ places)).ReadsWhole (n * 2 ^ places) := by
  rcases eq_or_ne n 0 with rfl | hn
  · have hexponent : (⟨0, 0⟩ : Decimal).exponent = (0 : ℕ) := rfl
    rw [Nat.zero_mul, shortest, if_pos rfl, ReadsWhole, bits_of_exponent hp hexponent]
    simp
  · have hscaled : n * 2 ^ places * Nat.pow 5 1074 = n * 10 ^ places := by
      simp only [← hp, Nat.pow_eq, mul_assoc, ← mul_pow, Nat.reduceMul]
    have hpower : 28 * 38 + 10 = places := hp.symm
    have hlog := le_log2_of_ten_pow hn 38
    rw [hpower] at hlog
    rw [shortest, if_neg (by positivity), hscaled]
    apply readsWhole_search hp hn
    omega

end

end Decimal

def IsWhole (x : Float) : Prop := ∃ n, Form.ofFloat x = .finite false (n * 2 ^ 1074)

open Text

lemma isNumeral_write {x : Float} {steps : ℕ} (hx : Form.ofFloat x = .finite false steps)
    (h : 0 ≤ (Decimal.shortest steps).exponent) : IsNumeral (plain.write x) := by
  obtain ⟨k, hk⟩ := Int.eq_ofNat_of_zero_le h
  have hwrite : (plain.write x).toList =
      Decimal.digits (Decimal.shortest steps).coefficient ++ List.replicate k '0' := by
    rw [write_of_form hx, if_neg Bool.false_ne_true, Decimal.positional, hk]
    exact List.append_nil _
  constructor
  · rw [ne_eq, ← String.toList_eq_nil_iff, hwrite]
    simp [Decimal.digits, Nat.toDigits_ne_nil]
  · rw [hwrite, List.forall_mem_append]
    exact ⟨fun c => isDigit_of_mem_digits, fun c hc => List.eq_of_mem_replicate hc ▸ rfl⟩

lemma IsWhole.numeral {x : Float} (h : IsWhole x) :
    IsNumeral (plain.write x) ∧ read? (plain.write x) = some x := by
  obtain ⟨n, hx⟩ := h
  generalize hp : 1074 = places at hx
  exact ⟨isNumeral_write hx (Decimal.readsWhole_shortest hp.symm n).1, read?_write x⟩

end Varlet.Number
