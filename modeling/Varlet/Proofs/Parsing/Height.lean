import Varlet.Proofs.Lexing.Spaced
import Varlet.Proofs.Parsing.Acceptance
import Varlet.Session

/-! How high the trees of accepted programs are. A bracket in front of a chain starts again with
almost all levels, so `n` levels allow a height of `n ^ 2`. -/

namespace Varlet

mutual

def Expr.height : Expr → ℕ
  | .assignment target value => max target.height value.height + 1
  | .binary left _ right => max left.height right.height + 1
  | .identifier _ | .number _ | .null => 1
  | .object ps => propertiesHeight ps + 1

def propertiesHeight : List (Property Expr) → ℕ
  | [] => 0
  | ⟨_, none⟩ :: ps => propertiesHeight ps
  | ⟨_, some e⟩ :: ps => max e.height (propertiesHeight ps)

end

lemma Expr.height_pos (e : Expr) : 0 < e.height := by
  cases e <;> simp [Expr.height]

mutual

def Expr.parts : Expr → List Expr
  | .assignment target value => .assignment target value :: (target.parts ++ value.parts)
  | .binary left op right => .binary left op right :: (left.parts ++ right.parts)
  | .identifier name => [.identifier name]
  | .number x => [.number x]
  | .null => [.null]
  | .object ps => .object ps :: propertiesParts ps

def propertiesParts : List (Property Expr) → List Expr
  | [] => []
  | ⟨_, none⟩ :: ps => propertiesParts ps
  | ⟨_, some e⟩ :: ps => e.parts ++ propertiesParts ps

end

lemma Expr.mem_parts_self (e : Expr) : e ∈ e.parts := by
  cases e <;> simp [Expr.parts]

def Program.expressions (p : Program) : List Expr :=
  p.body.flatMap fun s => s.expression?.toList.flatMap Expr.parts

mutual

lemma Expr.height_le_of_mem_parts {d : Expr} : ∀ e : Expr, d ∈ e.parts → d.height ≤ e.height
  | .assignment target value, h => by
    simp only [Expr.parts, List.mem_cons, List.mem_append] at h
    rcases h with rfl | h | h
    · exact le_rfl
    · have := Expr.height_le_of_mem_parts target h
      simp only [Expr.height]
      omega
    · have := Expr.height_le_of_mem_parts value h
      simp only [Expr.height]
      omega
  | .binary left op right, h => by
    simp only [Expr.parts, List.mem_cons, List.mem_append] at h
    rcases h with rfl | h | h
    · exact le_rfl
    · have := Expr.height_le_of_mem_parts left h
      simp only [Expr.height]
      omega
    · have := Expr.height_le_of_mem_parts right h
      simp only [Expr.height]
      omega
  | .identifier _, h | .number _, h | .null, h => by
    rw [Expr.parts, List.mem_singleton] at h
    rw [h]
  | .object ps, h => by
    simp only [Expr.parts, List.mem_cons] at h
    rcases h with rfl | h
    · exact le_rfl
    · have := height_le_of_mem_propertiesParts ps h
      simp only [Expr.height]
      omega

lemma height_le_of_mem_propertiesParts {d : Expr} :
    ∀ ps : List (Property Expr), d ∈ propertiesParts ps → d.height ≤ propertiesHeight ps
  | [], h => by simp [propertiesParts] at h
  | ⟨_, none⟩ :: ps, h => by
    rw [propertiesParts] at h
    rw [propertiesHeight]
    exact height_le_of_mem_propertiesParts ps h
  | ⟨_, some e⟩ :: ps, h => by
    rw [propertiesParts, List.mem_append] at h
    rw [propertiesHeight]
    rcases h with h | h
    · exact le_max_of_le_left (Expr.height_le_of_mem_parts e h)
    · exact le_max_of_le_right (height_le_of_mem_propertiesParts ps h)

end

namespace Grammar

def Symbol.heightBound : Symbol → ℕ → ℕ
  | expression, n => n ^ 2
  | level, n => n + n + max 1 (n ^ 2)
  | members, n => n ^ 2 + 1
  | sum k, n => k + n + max 1 (n ^ 2)
  | product k, n => k + max 1 (n ^ 2)
  | primary, n => max 1 (n ^ 2)

lemma Derives.levels_pos {ts : List Token} {e : Expr} {n : ℕ} (h : Derives .expression ts e n) :
    0 < n := by
  cases h <;> omega

lemma sq_succ (n : ℕ) : (n + 1) ^ 2 = n + n + n ^ 2 + 1 := by ring

lemma Derives.height_le {X : Symbol} {ts : List Token} {e : Expr} {n : ℕ} (h : Derives X ts e n) :
    e.height ≤ X.heightBound n := by
  have hsq {i j : ℕ} (hij : i ≤ j) : i ^ 2 ≤ j ^ 2 := Nat.pow_le_pow_left hij 2
  induction h with simp only [Symbol.heightBound, Expr.height, propertiesHeight] at *
  | @expression ts e n _ ih =>
    rw [sq_succ]
    omega
  | @assignment _ _ _ _ n m _ _ _ he ih ih' =>
    have := he.levels_pos
    have hn := hsq (le_max_left n m)
    have hm := hsq (le_max_right n m)
    have := hsq (show 1 ≤ max n m by omega)
    rw [sq_succ]
    omega
  | @object _ _ n _ _ _ ih =>
    have := hsq (Nat.zero_le n)
    rcases Nat.eq_zero_or_pos n with rfl | hn
    · omega
    · omega
  | level h ih =>
    have := h.sum_operators_le
    omega
  | closing _ => omega
  | last _ _ _ _ ih => omega
  | @member _ _ _ _ n m _ _ _ _ _ _ _ _ ih ih' =>
    have hn := hsq (le_max_left n m)
    have hm := hsq (le_max_right n m)
    omega
  | summand h ih =>
    have := h.product_operators_le
    omega
  | @add _ _ _ _ _ n m k j _ _ _ h ih ih' =>
    have := h.product_operators_le
    have hn := hsq (le_max_left n (k + 1 + m))
    have hm := hsq (show m ≤ max n (k + 1 + m) by omega)
    omega
  | factor _ ih => omega
  | @multiply _ _ _ _ _ n m k _ _ _ _ ih ih' =>
    have hn := hsq (le_max_left n (k + 1 + m))
    have hm := hsq (show m ≤ max n (k + 1 + m) by omega)
    omega
  | identifier _ => omega
  | number _ _ => omega
  | null _ => omega
  | parentheses _ _ _ ih => omega

def chainKinds (sign : Token.Kind) (k : ℕ) : List Token.Kind :=
  (List.replicate k [sign, .identifier]).flatten

def highKinds : ℕ → List Token.Kind
  | 0 => [.identifier]
  | n + 1 =>
    .parenLeft :: (highKinds n ++ (.parenRight :: (chainKinds .multiply (n + 1) ++
      (chainKinds .plus (n + 1) ++ [.assign, .identifier]))))

lemma highKinds_ne_eof {n : ℕ} : ∀ k ∈ highKinds n, k ≠ .eof := by
  have hchain {sign : Token.Kind} (hs : sign ≠ .eof) (k : ℕ) :
      ∀ t ∈ chainKinds sign k, t ≠ .eof := by
    simp only [chainKinds, List.mem_flatten, List.mem_replicate]
    rintro t ⟨_, ⟨-, rfl⟩, ht⟩
    simp only [List.mem_cons, List.not_mem_nil, or_false] at ht
    rcases ht with rfl | rfl
    · exact hs
    · decide
  induction n with
  | zero => decide
  | succ n ih =>
    simp only [highKinds, List.forall_mem_cons, List.forall_mem_append]
    exact ⟨by decide, ih, by decide, hchain (by decide) _, hchain (by decide) _, by decide,
      by decide, by simp⟩

lemma exists_chain {X : ℕ → Symbol} {sign : Token.Kind} {op : Operator} {n : ℕ}
    (hX : ∀ {j c us left} {t name : Token}, Derives (X j) us left c → t.kind = sign →
      name.kind = .identifier →
      Derives (X (j + 1)) (us ++ [t, name]) (.binary left op (.identifier name.text))
        (max c (j + 1))) :
    ∀ {k j c ts us left}, Derives (X j) us left c → c ≤ n → j + k ≤ n →
      ts.map Token.kind = chainKinds sign k →
      ∃ e d, d ≤ n ∧ Derives (X (j + k)) (us ++ ts) e d ∧ e.height = left.height + k := by
  intro k
  induction k with
  | zero =>
    intro j c ts us left h hc _ hts
    obtain rfl : ts = [] := by simpa [chainKinds] using hts
    exact ⟨left, c, hc, by simpa using h, rfl⟩
  | succ k ih =>
    intro j c ts us left h hc hk hts
    simp only [chainKinds, List.replicate_succ, List.flatten_cons, List.cons_append,
      List.nil_append, List.map_eq_cons_iff] at hts
    obtain ⟨t, _, rfl, ht, name, ts, rfl, hname, hts⟩ := hts
    obtain ⟨e, d, hd, he, heq⟩ := ih (hX h ht hname) (by omega) (by omega) hts
    refine ⟨e, d, hd, ?_, ?_⟩
    · rwa [show j + 1 + k = j + (k + 1) by omega, List.append_assoc] at he
    · have := left.height_pos
      rw [heq, Expr.height, Expr.height]
      omega

section

variable {us : List Token} {left : Expr} {j c : ℕ} {t name : Token}

lemma multiply_name (h : Derives (.product j) us left c) (ht : t.kind = .multiply)
    (hname : name.kind = .identifier) :
    Derives (.product (j + 1)) (us ++ [t, name]) (.binary left .multiply (.identifier name.text))
      (max c (j + 1)) :=
  .multiply h (by rw [ht]; rfl) (.identifier hname)

lemma add_name (h : Derives (.sum j) us left c) (ht : t.kind = .plus)
    (hname : name.kind = .identifier) :
    Derives (.sum (j + 1)) (us ++ [t, name]) (.binary left .add (.identifier name.text))
      (max c (j + 1)) :=
  .add h (by rw [ht]; rfl) (.factor (.identifier hname))

end

lemma derives_name {name : Token} (h : name.kind = .identifier) :
    Derives .expression [name] (.identifier name.text) 1 :=
  .expression (.level (.summand (.factor (.identifier h))))

lemma exists_high {n : ℕ} {ts : List Token} (h : ts.map Token.kind = highKinds n) :
    ∃ e c, c ≤ n + 1 ∧ Derives .expression ts e c ∧ e.height = (n + 1) ^ 2 := by
  induction n generalizing ts with
  | zero =>
    simp only [highKinds, List.map_eq_cons_iff] at h
    obtain ⟨name, _, rfl, hname, hnil⟩ := h
    obtain rfl := List.map_eq_nil_iff.mp hnil
    exact ⟨_, 1, le_rfl, derives_name hname, rfl⟩
  | succ n ih =>
    simp only [highKinds, List.map_eq_cons_iff, List.map_eq_append_iff] at h
    obtain ⟨opening, _, rfl, ho, inner, _, rfl, hinner, closing, _, rfl, hc, products, _, rfl,
      hproducts, sums, _, rfl, hsums, sign, _, rfl, hs, name, _, rfl, hname, hnil⟩ := h
    obtain rfl := List.map_eq_nil_iff.mp hnil
    obtain ⟨e, c, hle, he, hheight⟩ := ih hinner
    have hfirst : Derives (.product 0) (opening :: (inner ++ [closing])) e c :=
      .factor (.parentheses ho he hc)
    obtain ⟨e₁, c₁, hle₁, he₁, hheight₁⟩ := exists_chain (X := .product) multiply_name hfirst hle
      (Nat.zero_add (n + 1)).le hproducts
    obtain ⟨e₂, c₂, hle₂, he₂, hheight₂⟩ := exists_chain (X := .sum) add_name (.summand he₁) hle₁
      (Nat.zero_add (n + 1)).le hsums
    have hwhole := Derives.assignment (.level he₂) hs (derives_name hname)
    refine ⟨_, _, ?_, by simpa using hwhole, ?_⟩
    · omega
    · rw [Expr.height, Expr.height, hheight₂, hheight₁, hheight, sq_succ (n + 1)]
      omega

lemma DerivesStatement.height_le {ts : List Token} {s : Statement} {n : ℕ}
    (h : DerivesStatement ts s n) : ∀ e ∈ s.expression?, e.height ≤ n ^ 2 := by
  cases h with
  | expression h | constant _ _ _ h | mutable _ _ _ _ h =>
    rintro _ ⟨rfl⟩
    exact h.height_le
  | uninitialized _ _ _ => simp [Statement.expression?]

lemma DerivesProgram.height_le {ts : List Token} {body : List Statement} {n : ℕ}
    (h : DerivesProgram ts body n) : ∀ s ∈ body, ∀ e ∈ s.expression?, e.height ≤ n ^ 2 := by
  induction h with
  | nil => simp
  | @cons _ _ _ _ n m hs _ ih =>
    rw [List.forall_mem_cons]
    constructor
    · intro e he
      exact (hs.height_le e he).trans (Nat.pow_le_pow_left (le_max_left n m) 2)
    · intro s hmem e he
      exact (ih s hmem e he).trans (Nat.pow_le_pow_left (le_max_right n m) 2)

end Grammar

open Grammar

lemma Program.height_le {ts : List Token} {p : Program} {n : ℕ}
    (h : DerivesProgram ts p.body n) : ∀ e ∈ p.expressions, e.height ≤ n ^ 2 := by
  intro d hd
  simp only [expressions, List.mem_flatMap, Option.mem_toList] at hd
  obtain ⟨s, hs, e, he, hd⟩ := hd
  exact (Expr.height_le_of_mem_parts e hd).trans (h.height_le s hs e he)

theorem parse_height_le_iff (bound : ℕ) :
    (∀ source p, parse source = .ok p → ∀ e ∈ p.expressions, e.height ≤ bound) ↔
      maxNesting ^ 2 ≤ bound := by
  constructor
  · intro h
    obtain ⟨n, hn⟩ : ∃ n, maxNesting = n + 1 := ⟨2047, rfl⟩
    obtain ⟨source, ts, final, htokens, hkinds, hts, hfinal⟩ :=
      exists_source (highKinds_ne_eof (n := n))
    obtain ⟨e, c, hle, he, hheight⟩ := exists_high hkinds
    have hd : DerivesProgram ts [.expression e] c := .single (.expression he)
    rw [← TokenStream.pending_ofTokens hts hfinal] at hd
    have hp : parse source = .ok ⟨[.expression e]⟩ :=
      parse_eq_ok_iff.mpr ⟨_, htokens, Program.ofTokens_of_derives (hn ▸ hle) hd⟩
    have hmem : e ∈ (Program.mk [.expression e]).expressions := by
      simp [Program.expressions, Statement.expression?, e.mem_parts_self]
    rw [hn, ← hheight]
    exact h source _ hp e hmem
  · intro hb source p hp e he
    obtain ⟨ts, -, hp⟩ := parse_eq_ok_iff.mp hp
    obtain ⟨n, hn, hd⟩ := Program.derives_of_ofTokens hp
    calc e.height ≤ n ^ 2 := p.height_le hd e he
      _ ≤ maxNesting ^ 2 := Nat.pow_le_pow_left hn 2
      _ ≤ bound := hb

end Varlet
