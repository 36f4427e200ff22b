import Mathlib
import Varlet.Number.Reader
import Varlet.Program.Basic
import Varlet.Token.Basic

/-! The grammar of programs. A derivation relates tokens to their tree and to the number of levels
that the tree nests, on which no limit is set. -/

namespace Varlet.Grammar

/-- The parts that an expression is made of. `members` is what follows an opening brace; a sum or a
product is named with the number of its operators. -/
inductive Symbol where
  | expression
  | level
  | members
  | sum (operators : ℕ)
  | product (operators : ℕ)
  | primary

inductive Derives : Symbol → List Token → Expr → ℕ → Prop
  | expression {ts e n} : Derives .level ts e n → Derives .expression ts e (n + 1)
  | assignment {ts us target value n m} {sign : Token} :
      Derives .level ts target n → sign.kind = .assign → Derives .expression us value m →
      Derives .expression (ts ++ sign :: us) (.assignment target value) (max n m + 1)
  | object {ts ps n} {opening : Token} :
      opening.kind = .braceLeft → Derives .members ts (.object ps) n →
      Derives .level (opening :: ts) (.object ps) n
  | level {ts e n k} : Derives (.sum k) ts e n → Derives .level ts e n
  | closing {closing : Token} :
      closing.kind = .braceRight → Derives .members [closing] (.object []) 0
  | last {ts e n} {key colon closing : Token} :
      key.kind = .identifier → colon.kind = .colon → Derives .expression ts e n →
      closing.kind = .braceRight →
      Derives .members (key :: colon :: (ts ++ [closing])) (.object [⟨key.text, some e⟩]) n
  | member {ts us e ps n m} {key colon comma : Token} :
      key.kind = .identifier → colon.kind = .colon → Derives .expression ts e n →
      comma.kind = .comma → Derives .members us (.object ps) m →
      Derives .members (key :: colon :: (ts ++ comma :: us))
        (.object (⟨key.text, some e⟩ :: ps)) (max n m)
  | summand {ts e n k} : Derives (.product k) ts e n → Derives (.sum 0) ts e n
  | add {ts us left right op n m k j} {sign : Token} :
      Derives (.sum k) ts left n → sign.kind.additive? = some op →
      Derives (.product j) us right m →
      Derives (.sum (k + 1)) (ts ++ sign :: us) (.binary left op right) (max n (k + 1 + m))
  | factor {ts e n} : Derives .primary ts e n → Derives (.product 0) ts e n
  | multiply {ts us left right op n m k} {sign : Token} :
      Derives (.product k) ts left n → sign.kind.multiplicative? = some op →
      Derives .primary us right m →
      Derives (.product (k + 1)) (ts ++ sign :: us) (.binary left op right) (max n (k + 1 + m))
  | identifier {name : Token} :
      name.kind = .identifier → Derives .primary [name] (.identifier name.text) 0
  | number {digits : Token} {x : Float} :
      digits.kind = .number → Number.read? digits.text = some x →
      Derives .primary [digits] (.number x) 0
  | null {word : Token} : word.kind = .keywordNull → Derives .primary [word] .null 0
  | parentheses {ts e n} {opening closing : Token} :
      opening.kind = .parenLeft → Derives .expression ts e n → closing.kind = .parenRight →
      Derives .primary (opening :: (ts ++ [closing])) e n

inductive DerivesStatement : List Token → Statement → ℕ → Prop
  | expression {ts e n} : Derives .expression ts e n → DerivesStatement ts (.expression e) n
  | constant {ts e n} {keyword name sign : Token} :
      keyword.kind = .keywordVar ∨ keyword.kind = .keywordMut → name.kind = .identifier →
      sign.kind = .assign → Derives .expression ts e n →
      DerivesStatement (keyword :: name :: sign :: ts) (.declaration false name.text (some e)) n
  | mutable {ts e n} {keyword second name sign : Token} :
      keyword.kind = .keywordVar ∨ keyword.kind = .keywordMut → second.kind = .keywordMut →
      name.kind = .identifier → sign.kind = .assign → Derives .expression ts e n →
      DerivesStatement (keyword :: second :: name :: sign :: ts)
        (.declaration true name.text (some e)) n
  | uninitialized {keyword second name : Token} :
      keyword.kind = .keywordVar ∨ keyword.kind = .keywordMut → second.kind = .keywordMut →
      name.kind = .identifier →
      DerivesStatement [keyword, second, name] (.declaration true name.text none) 0

inductive DerivesProgram : List Token → List Statement → ℕ → Prop
  | nil : DerivesProgram [] [] 0
  | cons {ts us s ss n m} : DerivesStatement ts s n → DerivesProgram us ss m →
      DerivesProgram (ts ++ us) (s :: ss) (max n m)

def Grammatical (ts : List Token) : Prop := ∃ body n, DerivesProgram ts body n

def Symbol.firstKinds : Symbol → List Token.Kind
  | expression | level => [.braceLeft, .identifier, .number, .keywordNull, .parenLeft]
  | members => [.braceRight, .identifier]
  | sum _ | product _ | primary => [.identifier, .number, .keywordNull, .parenLeft]

lemma Derives.exists_first {X : Symbol} {ts : List Token} {e : Expr} {n : ℕ}
    (h : Derives X ts e n) : ∃ t us, ts = t :: us ∧ t.kind ∈ X.firstKinds := by
  induction h with
  | expression _ ih => exact ih
  | assignment _ _ _ ih _ =>
    obtain ⟨t, us, rfl, ht⟩ := ih
    exact ⟨t, _, rfl, ht⟩
  | object ho _ _ => exact ⟨_, _, rfl, by simp [Symbol.firstKinds, ho]⟩
  | level _ ih =>
    obtain ⟨t, us, rfl, ht⟩ := ih
    exact ⟨t, us, rfl, List.mem_cons_of_mem _ ht⟩
  | closing hc => exact ⟨_, _, rfl, by simp [Symbol.firstKinds, hc]⟩
  | last hk _ _ _ _ => exact ⟨_, _, rfl, by simp [Symbol.firstKinds, hk]⟩
  | member hk _ _ _ _ _ _ => exact ⟨_, _, rfl, by simp [Symbol.firstKinds, hk]⟩
  | summand _ ih => exact ih
  | add _ _ _ ih _ =>
    obtain ⟨t, us, rfl, ht⟩ := ih
    exact ⟨t, _, rfl, ht⟩
  | factor _ ih => exact ih
  | multiply _ _ _ ih _ =>
    obtain ⟨t, us, rfl, ht⟩ := ih
    exact ⟨t, _, rfl, ht⟩
  | identifier hk => exact ⟨_, _, rfl, by simp [Symbol.firstKinds, hk]⟩
  | number hk _ => exact ⟨_, _, rfl, by simp [Symbol.firstKinds, hk]⟩
  | null hk => exact ⟨_, _, rfl, by simp [Symbol.firstKinds, hk]⟩
  | parentheses ho _ _ _ => exact ⟨_, _, rfl, by simp [Symbol.firstKinds, ho]⟩

lemma DerivesStatement.exists_first {ts : List Token} {s : Statement} {n : ℕ}
    (h : DerivesStatement ts s n) :
    ∃ t us, ts = t :: us ∧
      t.kind ∈ [.keywordVar, .keywordMut] ++ Symbol.expression.firstKinds := by
  cases h with
  | expression h =>
    obtain ⟨t, us, rfl, ht⟩ := h.exists_first
    exact ⟨t, us, rfl, List.mem_append_right _ ht⟩
  | constant hk _ _ _ => exact ⟨_, _, rfl, by rcases hk with hk | hk <;> simp [hk]⟩
  | mutable hk _ _ _ _ => exact ⟨_, _, rfl, by rcases hk with hk | hk <;> simp [hk]⟩
  | uninitialized hk _ _ => exact ⟨_, _, rfl, by rcases hk with hk | hk <;> simp [hk]⟩

lemma ne_eof_of_additive {k : Token.Kind} {op : Operator} (h : k.additive? = some op) :
    k ≠ .eof := by
  rintro rfl
  cases h

lemma ne_eof_of_multiplicative {k : Token.Kind} {op : Operator}
    (h : k.multiplicative? = some op) : k ≠ .eof := by
  rintro rfl
  cases h

lemma Derives.kind_ne_eof {X : Symbol} {ts : List Token} {e : Expr} {n : ℕ}
    (h : Derives X ts e n) : ∀ t ∈ ts, t.kind ≠ .eof := by
  induction h with
  | expression _ ih => exact ih
  | assignment _ ha _ ih ih' =>
    rw [List.forall_mem_append, List.forall_mem_cons]
    exact ⟨ih, by simp [ha], ih'⟩
  | object ho _ ih =>
    rw [List.forall_mem_cons]
    exact ⟨by simp [ho], ih⟩
  | level _ ih => exact ih
  | closing hc => simp [hc]
  | last hk hc _ hb ih =>
    rw [List.forall_mem_cons, List.forall_mem_cons, List.forall_mem_append]
    exact ⟨by simp [hk], by simp [hc], ih, by simp [hb]⟩
  | member hk hc _ hm _ ih ih' =>
    rw [List.forall_mem_cons, List.forall_mem_cons, List.forall_mem_append, List.forall_mem_cons]
    exact ⟨by simp [hk], by simp [hc], ih, by simp [hm], ih'⟩
  | summand _ ih => exact ih
  | add _ ha _ ih ih' =>
    rw [List.forall_mem_append, List.forall_mem_cons]
    exact ⟨ih, ne_eof_of_additive ha, ih'⟩
  | factor _ ih => exact ih
  | multiply _ hm _ ih ih' =>
    rw [List.forall_mem_append, List.forall_mem_cons]
    exact ⟨ih, ne_eof_of_multiplicative hm, ih'⟩
  | identifier hk => simp [hk]
  | number hk _ => simp [hk]
  | null hk => simp [hk]
  | parentheses ho _ hc ih =>
    rw [List.forall_mem_cons, List.forall_mem_append]
    exact ⟨by simp [ho], ih, by simp [hc]⟩

lemma DerivesStatement.kind_ne_eof {ts : List Token} {s : Statement} {n : ℕ}
    (h : DerivesStatement ts s n) : ∀ t ∈ ts, t.kind ≠ .eof := by
  have hkeyword {t : Token} (ht : t.kind = .keywordVar ∨ t.kind = .keywordMut) : t.kind ≠ .eof := by
    rcases ht with ht | ht <;> simp [ht]
  cases h with
  | expression h => exact h.kind_ne_eof
  | constant hk hn hs h =>
    simp only [List.forall_mem_cons]
    exact ⟨hkeyword hk, by simp [hn], by simp [hs], h.kind_ne_eof⟩
  | mutable hk hm hn hs h =>
    simp only [List.forall_mem_cons]
    exact ⟨hkeyword hk, by simp [hm], by simp [hn], by simp [hs], h.kind_ne_eof⟩
  | uninitialized hk hm hn =>
    simp only [List.forall_mem_cons]
    exact ⟨hkeyword hk, by simp [hm], by simp [hn], by simp⟩

lemma DerivesProgram.kind_ne_eof {ts : List Token} {body : List Statement} {n : ℕ}
    (h : DerivesProgram ts body n) : ∀ t ∈ ts, t.kind ≠ .eof := by
  induction h with
  | nil => simp
  | cons hs _ ih =>
    rw [List.forall_mem_append]
    exact ⟨hs.kind_ne_eof, ih⟩

lemma DerivesProgram.single {ts : List Token} {s : Statement} {n : ℕ}
    (h : DerivesStatement ts s n) : DerivesProgram ts [s] n := by
  simpa using DerivesProgram.cons h .nil

lemma Derives.members_eq_object {ts : List Token} {e : Expr} {n : ℕ}
    (h : Derives .members ts e n) : ∃ ps, e = .object ps := by
  cases h with
  | closing _ => exact ⟨_, rfl⟩
  | last _ _ _ _ => exact ⟨_, rfl⟩
  | member _ _ _ _ _ => exact ⟨_, rfl⟩

lemma Derives.sum_operators_le {k n : ℕ} {ts : List Token} {e : Expr}
    (h : Derives (.sum k) ts e n) : k ≤ n := by
  cases h with
  | summand _ => exact Nat.zero_le _
  | add _ _ _ => omega

lemma Derives.product_operators_le {k n : ℕ} {ts : List Token} {e : Expr}
    (h : Derives (.product k) ts e n) : k ≤ n := by
  cases h with
  | factor _ => exact Nat.zero_le _
  | multiply _ _ _ => omega

end Varlet.Grammar
