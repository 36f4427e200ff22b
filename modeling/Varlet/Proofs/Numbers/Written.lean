import Varlet.Number.Format
import Varlet.Number.Reader
import Varlet.Proofs.Numbers.Pattern

namespace Varlet.Number

open Text

section Patterns

variable {x : Float} {bits steps : ℕ} {negative : Bool}

lemma sign_of_finite (h : Form.ofBits bits = .finite negative steps) :
    decide (2 ^ 63 ≤ bits) = negative := by
  simp only [Form.ofBits, Nat.pow_eq] at h
  split_ifs at h
  · exact (Form.finite.inj h).1
  · exact (Form.finite.inj h).1

lemma finite_of_negative (hlt : bits < 2 ^ 64) (h : Form.ofBits bits = .finite true steps) :
    2 ^ 63 ≤ bits ∧ Form.ofBits (bits - 2 ^ 63) = .finite false steps := by
  have hsign := of_decide_eq_true (sign_of_finite h)
  have hexponent : (bits - 2 ^ 63) / 2 ^ 52 % 2 ^ 11 = bits / 2 ^ 52 % 2 ^ 11 := by omega
  have hfraction : (bits - 2 ^ 63) % 2 ^ 52 = bits % 2 ^ 52 := by omega
  have hpositive : decide (2 ^ 63 ≤ bits - 2 ^ 63) = false := decide_eq_false (by omega)
  refine ⟨hsign, ?_⟩
  rw [Form.ofBits] at h ⊢
  simp only [Nat.pow_eq, hexponent, hfraction, hpositive] at h ⊢
  split_ifs at h ⊢
  · rw [(Form.finite.inj h).2]
  · rw [(Form.finite.inj h).2]

lemma ofSize_of_toNat {size : ℕ}
    (h : x.toBits.toNat = if negative then 2 ^ 63 + size else size) : ofSize negative size = x := by
  rw [ofSize, Nat.pow_eq, ← h, UInt64.ofNat_toNat, ofBits_toBits]

lemma ofSize_of_finite (h : Form.ofFloat x = .finite negative steps) :
    ofSize negative (nearestBits steps 1) = x := by
  apply ofSize_of_toNat
  cases negative with
  | false => rw [if_neg Bool.false_ne_true, nearestBits_of_finite h]
  | true =>
    obtain ⟨hsign, hrest⟩ := finite_of_negative x.toBits.toNat_lt h
    rw [if_pos rfl, nearestBits_of_finite hrest]
    omega

lemma ofSize_of_infinite (h : Form.ofFloat x = .infinite negative) :
    ofSize negative infinityBits = x := by
  have hlt : x.toBits.toNat < 2 ^ 64 := x.toBits.toNat_lt
  apply ofSize_of_toNat
  simp only [Form.ofFloat, Form.ofBits, Nat.pow_eq] at h
  split_ifs at h with hmax hzero
  rw [← Form.infinite.inj h]
  simp only [infinityBits, Nat.pow_eq, decide_eq_true_eq]
  split_ifs
  · omega
  · omega

open Float.Model.UnpackedFloat in
lemma toBits_of_nan (h : Form.ofFloat x = .nan) :
    x.toBits.toBitVec = packedNaN .binary64 := by
  simp only [Form.ofFloat, Form.ofBits, Nat.pow_eq] at h
  split_ifs at h with hmax hzero
  rw [Float.toBits] at hmax hzero
  apply x.toModel.valid.eq_packedNaN
  · apply BitVec.eq_of_toNat_eq
    simpa [unpackExponent, Nat.shiftRight_eq_div_pow] using hmax
  · intro hmantissa
    have hnat := congrArg BitVec.toNat hmantissa
    apply hzero
    simpa [unpackMantissa] using hnat

lemma eq_of_nan {y : Float} (hx : Form.ofFloat x = .nan) (hy : Form.ofFloat y = .nan) : x = y := by
  rw [← Float.toBits_inj]
  exact UInt64.eq_of_toBitVec_eq ((toBits_of_nan hx).trans (toBits_of_nan hy).symm)

end Patterns

lemma roundDiv_mul_right {k : ℕ} (hk : 0 < k) (num den : ℕ) :
    roundDiv (num * k) (den * k) = roundDiv num den := by
  simp only [roundDiv, Nat.mul_div_mul_right num den hk, Nat.mul_mod_mul_right, ← Nat.mul_assoc,
    Nat.mul_lt_mul_right hk, Nat.mul_left_inj hk.ne']

lemma nearestBits_mul_right {k : ℕ} (hk : 0 < k) (num den : ℕ) :
    nearestBits (num * k) (den * k) = nearestBits num den := by
  simp only [nearestBits, Nat.mul_div_mul_right num den hk, Nat.mul_right_comm den k,
    roundDiv_mul_right hk]

lemma isDigit_of_mem_digits {n : ℕ} {c : Char} (h : c ∈ Decimal.digits n) : isDigit c := by
  have hc := Nat.isDigit_of_mem_toDigits (by norm_num) (by norm_num) h
  rw [Char.isDigit, Bool.and_eq_true, decide_eq_true_eq, decide_eq_true_eq] at hc
  rw [isDigit, Bool.and_eq_true, decide_eq_true_eq, decide_eq_true_eq]
  exact hc

lemma valueOfDigits_append_zeros (n k : ℕ) :
    valueOfDigits (Decimal.digits n ++ List.replicate k '0') = n * 10 ^ k := by
  change Nat.ofDigitChars 10 (Nat.toDigits 10 n ++ List.replicate k '0') 0 = _
  rw [Nat.ofDigitChars_append, Nat.ofDigitChars_ten_toDigits, Nat.ofDigitChars_replicate_zero,
    Nat.mul_comm]

lemma toLower_of_digit {c : Char} (h : isDigit c) : c.toLower = c := by
  apply Char.toLower_eq_of_not_isUpper
  simp only [isDigit, Bool.and_eq_true, decide_eq_true_eq, Char.le_def, UInt32.le_iff_toNat_le,
    Char.toNat_val] at h
  have hnine : '9'.toNat = 57 := rfl
  simp [Char.isUpper, UInt32.le_iff_toNat_le]
  omega

lemma ne_word_of_digit {c : Char} (hc : isDigit c) (cs : List Char) {letter : Char}
    (hl : ¬ isDigit letter) (word : List Char) :
    String.ofList ((c :: cs).map Char.toLower) ≠ String.ofList (letter :: word) := by
  rw [List.map_cons, toLower_of_digit hc, ne_eq, String.ofList_inj, List.cons.injEq]
  rintro ⟨rfl, -⟩
  exact hl hc

lemma splitSign_of_digit {c : Char} (hc : isDigit c) (cs : List Char) :
    splitSign (c :: cs) = (false, c :: cs) := by
  unfold splitSign
  split
  · next heq => exact absurd ((List.cons.inj heq).1 ▸ hc) (by decide)
  · next heq => exact absurd ((List.cons.inj heq).1 ▸ hc) (by decide)
  · rfl

lemma read?_of_decimal {c : Char} {cs : List Char} {d : Decimal} (hc : isDigit c)
    (hd : Decimal.read? (c :: cs) = some d) (negative : Bool) :
    read? (String.ofList (if negative then '-' :: c :: cs else c :: cs)) =
      some (ofSize negative d.bits) := by
  have hsplit : splitSign (if negative then '-' :: c :: cs else c :: cs) =
      (negative, c :: cs) := by
    cases negative with
    | false => exact splitSign_of_digit hc cs
    | true => rfl
  have hinf : ¬ isDigit 'i' := by decide
  have hnan : ¬ isDigit 'n' := by decide
  rw [read?, String.toList_ofList, hsplit]
  dsimp only
  rw [if_neg, if_neg, hd]
  · rfl
  · exact ne_word_of_digit hc cs hnan _
  · rw [not_or]
    exact ⟨ne_word_of_digit hc cs hinf _, ne_word_of_digit hc cs hinf _⟩

lemma Decimal.read?_of_digits {cs : List Char} (hne : cs ≠ []) (h : ∀ c ∈ cs, isDigit c) :
    Decimal.read? cs = some ⟨valueOfDigits cs, 0⟩ := by
  have hwhole : cs.takeWhile isDigit = cs := by simpa using h
  have hrest : cs.dropWhile isDigit = [] := by simpa using h
  simp [Decimal.read?, hwhole, hrest, readExponent?, hne]
  omega

lemma valueOfDigits_zeros_append (k n : ℕ) :
    valueOfDigits (List.replicate k '0' ++ Decimal.digits n) = n := by
  change Nat.ofDigitChars 10 (List.replicate k '0' ++ Nat.toDigits 10 n) 0 = n
  rw [Nat.ofDigitChars_append, Nat.ofDigitChars_replicate_zero, Nat.mul_zero,
    Nat.ofDigitChars_ten_toDigits]

namespace Decimal

lemma trim_eq (d : Decimal) : ∃ k : ℕ, d.coefficient = d.trim.coefficient * 10 ^ k ∧
    d.trim.exponent = d.exponent + k ∧ (d.coefficient ≠ 0 → d.trim.coefficient % 10 ≠ 0) := by
  induction d using trim.induct with
  | case1 d h ih =>
    obtain ⟨k, hc, he, hmod⟩ := ih
    dsimp only at hc he hmod
    rw [trim, if_pos h]
    refine ⟨k + 1, ?_, ?_, fun _ => hmod (by omega)⟩
    · rw [pow_succ, ← mul_assoc, ← hc]
      omega
    · rw [he]
      push_cast
      ring
  | case2 d h =>
    rw [trim, if_neg h]
    exact ⟨0, by simp, by simp, fun hc hm => h ⟨hc, hm⟩⟩

section

-- The number of places stays a variable, as nothing should try to work out its powers.
variable {places steps : ℕ} (hp : places = 1074)

include hp

lemma bits_of_exponent {d : Decimal} {k : ℕ} (h : d.exponent = k) :
    d.bits = nearestBits (d.coefficient * 10 ^ k * 2 ^ places) 1 := by
  rw [bits, h, ← hp]
  rfl

lemma bits_of_negative {d : Decimal} {k : ℕ} (h : d.exponent = -k) :
    d.bits = nearestBits (d.coefficient * 2 ^ places) (10 ^ k) := by
  cases k with
  | zero =>
    have hzero : d.exponent = (0 : ℕ) := h
    rw [bits_of_exponent hp hzero, pow_zero, Nat.mul_one]
  | succ n =>
    have hnegative : d.exponent = .negSucc n := h
    rw [bits, hnegative, ← hp]
    rfl

lemma bits_of_scaled {d : Decimal} {k : ℕ} (he : d.exponent = -places + k)
    (hc : d.coefficient * 10 ^ k = steps * 5 ^ places) : d.bits = nearestBits steps 1 := by
  have hscaled : d.coefficient * 2 ^ places * 10 ^ k = steps * 10 ^ places := by
    rw [Nat.mul_right_comm, hc, Nat.mul_assoc, ← Nat.mul_pow]
  have hpos (n : ℕ) : 0 < 10 ^ n := by positivity
  rcases Nat.le_total places k with hle | hle
  · obtain ⟨n, rfl⟩ := Nat.exists_eq_add_of_le hle
    have hexponent : d.exponent = n := by omega
    have hsteps : d.coefficient * 10 ^ n * 2 ^ places = steps := by
      apply Nat.eq_of_mul_eq_mul_right (hpos places)
      rw [← hscaled, pow_add]
      ring
    rw [bits_of_exponent hp hexponent, hsteps]
  · obtain ⟨n, hn⟩ := Nat.exists_eq_add_of_le hle
    have hexponent : d.exponent = -n := by omega
    have hsteps : d.coefficient * 2 ^ places = steps * 10 ^ n := by
      apply Nat.eq_of_mul_eq_mul_right (hpos k)
      rw [hscaled, hn, pow_add]
      ring
    have hquotient := nearestBits_mul_right (hpos n) steps 1
    rw [Nat.one_mul] at hquotient
    rw [bits_of_negative hp hexponent, hsteps, hquotient]

lemma bits_search (drop tries : ℕ) :
    (search (nearestBits steps 1) (steps * 5 ^ places) drop tries).bits = nearestBits steps 1 := by
  induction tries generalizing drop with
  | zero =>
    have hplaces : (-1074 : ℤ) = -places := by omega
    rw [search, hplaces]
    obtain ⟨k, hc, he, -⟩ := trim_eq ⟨steps * 5 ^ places, -places⟩
    exact bits_of_scaled hp he hc.symm
  | succ tries ih =>
    rw [search]
    split
    · next d hfind =>
      have hbits := List.find?_some hfind
      exact of_decide_eq_true hbits
    · exact ih _

lemma bits_shortest (steps : ℕ) : (shortest steps).bits = nearestBits steps 1 := by
  have hpower : Nat.pow 5 1074 = 5 ^ places := by rw [← hp, Nat.pow_eq]
  rw [shortest, hpower]
  split_ifs with hzero
  · subst hzero
    apply bits_of_scaled hp (k := places) <;> simp
  · exact bits_search hp _ _

end

lemma read?_of_point {whole fraction : List Char} (hne : whole ≠ [])
    (hw : ∀ c ∈ whole, isDigit c) (hf : ∀ c ∈ fraction, isDigit c) :
    read? (whole ++ '.' :: fraction) =
      some ⟨valueOfDigits (whole ++ fraction), -fraction.length⟩ := by
  have hpoint : ¬ isDigit '.' := by decide
  have hwhole : (whole ++ '.' :: fraction).takeWhile isDigit = whole := by
    rw [List.takeWhile_append_of_pos hw, List.takeWhile_cons_of_neg hpoint, List.append_nil]
  have hrest : (whole ++ '.' :: fraction).dropWhile isDigit = '.' :: fraction := by
    rw [List.dropWhile_append_of_pos hw, List.dropWhile_cons_of_neg hpoint]
  have hfraction : fraction.takeWhile isDigit = fraction := by simpa using hf
  have hnone : fraction.dropWhile isDigit = [] := by simpa using hf
  simp [read?, hwhole, hrest, hfraction, hnone, readExponent?, hne]
  omega

lemma exists_positional (d : Decimal) : ∃ whole fraction : List Char,
    whole ≠ [] ∧ (∀ c ∈ whole, isDigit c) ∧ (∀ c ∈ fraction, isDigit c) ∧
      ((d.positional [] = whole ∧ ∃ k : ℕ, d.exponent = k ∧
          valueOfDigits whole = d.coefficient * 10 ^ k) ∨
        (d.positional [] = whole ++ '.' :: fraction ∧ d.exponent = -fraction.length ∧
          valueOfDigits (whole ++ fraction) = d.coefficient)) := by
  have hzero : isDigit '0' := by decide
  have hdigits : digits d.coefficient ≠ [] := Nat.toDigits_ne_nil
  cases hexponent : d.exponent with
  | ofNat k =>
    refine ⟨digits d.coefficient ++ List.replicate k '0', [], by simp [hdigits], ?_, by simp,
      .inl ?_⟩
    · rw [List.forall_mem_append]
      exact ⟨fun c => isDigit_of_mem_digits, fun c hc => List.eq_of_mem_replicate hc ▸ hzero⟩
    · exact ⟨by simp [positional, hexponent], k, rfl, valueOfDigits_append_zeros _ _⟩
  | negSucc n =>
    generalize hpadded : List.replicate (n + 2 - (digits d.coefficient).length) '0' ++
      digits d.coefficient = padded
    have hlength : n + 2 ≤ padded.length := by
      rw [← hpadded, List.length_append, List.length_replicate]
      omega
    have hpadding : ∀ c ∈ padded, isDigit c := by
      rw [← hpadded, List.forall_mem_append]
      exact ⟨fun c hc => List.eq_of_mem_replicate hc ▸ hzero, fun c => isDigit_of_mem_digits⟩
    refine ⟨padded.take (padded.length - (n + 1)), padded.drop (padded.length - (n + 1)), ?_,
      fun c hc => hpadding c (List.mem_of_mem_take hc),
      fun c hc => hpadding c (List.mem_of_mem_drop hc), .inr ⟨?_, ?_, ?_⟩⟩
    · rw [ne_eq, ← List.length_eq_zero_iff, List.length_take]
      omega
    · simp [positional, hexponent, hpadded]
    · rw [List.length_drop]
      omega
    · rw [List.take_append_drop, ← hpadded]
      exact valueOfDigits_zeros_append _ _

lemma exists_read?_positional (d : Decimal) : ∃ c cs d', d.positional [] = c :: cs ∧ isDigit c ∧
    read? (c :: cs) = some d' ∧ d'.bits = d.bits := by
  obtain ⟨whole, fraction, hne, hw, hf, ⟨htext, k, he, hvalue⟩ | ⟨htext, he, hvalue⟩⟩ :=
    d.exists_positional
  · obtain ⟨c, cs, rfl⟩ := List.exists_cons_of_ne_nil hne
    refine ⟨c, cs, _, htext, hw c List.mem_cons_self, read?_of_digits hne hw, ?_⟩
    obtain ⟨places, hp⟩ : ∃ places, places = 1074 := ⟨_, rfl⟩
    rw [bits_of_exponent hp he, bits_of_exponent hp (k := 0) rfl, hvalue, pow_zero, Nat.mul_one]
  · obtain ⟨c, cs, rfl⟩ := List.exists_cons_of_ne_nil hne
    refine ⟨c, cs ++ '.' :: fraction, _, htext, hw c List.mem_cons_self,
      read?_of_point hne hw hf, ?_⟩
    rw [hvalue, ← he]

lemma mem_positional {d : Decimal} {c : Char} (h : c ∈ d.positional []) :
    isDigit c ∨ c = '.' := by
  obtain ⟨whole, fraction, -, hw, hf, ⟨htext, -⟩ | ⟨htext, -⟩⟩ := d.exists_positional
  · rw [htext] at h
    exact .inl (hw c h)
  · rw [htext, List.mem_append, List.mem_cons] at h
    rcases h with h | h | h
    · exact .inl (hw c h)
    · exact .inr h
    · exact .inl (hf c h)

end Decimal

lemma write_of_form {x : Float} {negative : Bool} {steps : ℕ}
    (hx : Form.ofFloat x = .finite negative steps) : (plain.write x).toList =
      if negative then '-' :: (Decimal.shortest steps).positional []
      else (Decimal.shortest steps).positional [] := by
  cases negative <;> simp [Format.write, hx, plain]

lemma read?_write (x : Float) : read? (plain.write x) = some x := by
  cases hx : Form.ofFloat x with
  | nan =>
    have hnan : Form.ofFloat nan = .nan := by decide +kernel
    have hread : read? "NaN" = some nan := by decide +kernel
    rw [Format.write, hx, ← eq_of_nan hnan hx]
    exact hread
  | infinite negative =>
    have hread : read? (plain.write x) = some (ofSize negative infinityBits) := by
      simp only [Format.write, hx]
      cases negative <;> decide +kernel
    rw [hread, ofSize_of_infinite hx]
  | finite negative steps =>
    obtain ⟨places, hp⟩ : ∃ places, places = 1074 := ⟨_, rfl⟩
    obtain ⟨c, cs, d, htext, hc, hd, hbits⟩ := (Decimal.shortest steps).exists_read?_positional
    have hwrite := write_of_form hx
    rw [htext] at hwrite
    rw [← String.ofList_toList (s := plain.write x), hwrite, read?_of_decimal hc hd, hbits,
      Decimal.bits_shortest hp, ofSize_of_finite hx]

lemma mem_write {x : Float} {c : Char} (h : c ∈ (plain.write x).toList) :
    isLetter c ∨ isDigit c ∨ c = '.' ∨ c = '-' := by
  cases hx : Form.ofFloat x with
  | nan =>
    have hletters : ∀ c ∈ "NaN".toList, isLetter c := by simp; decide
    simp only [Format.write, hx] at h
    exact .inl (hletters c h)
  | infinite negative =>
    have hletters : ∀ c ∈ "Infinity".toList, isLetter c := by simp; decide
    simp only [Format.write, hx, plain] at h
    cases negative with
    | false => exact .inl (hletters c h)
    | true =>
      rcases List.mem_cons.mp h with rfl | h
      · exact .inr (.inr (.inr rfl))
      · exact .inl (hletters c h)
  | finite negative steps =>
    rw [write_of_form hx] at h
    split_ifs at h
    · rcases List.mem_cons.mp h with rfl | h
      · exact .inr (.inr (.inr rfl))
      · exact .inr ((Decimal.mem_positional h).imp_right .inl)
    · exact .inr ((Decimal.mem_positional h).imp_right .inl)

end Varlet.Number
