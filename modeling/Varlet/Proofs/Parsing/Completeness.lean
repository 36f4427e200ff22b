import Varlet.Proofs.Parsing.Soundness

/-! Readers accept what the grammar derives: a reader that is given enough levels reads exactly the
tokens of a derivation, if the token behind them does not continue it. -/

namespace Varlet

lemma Token.Kind.multiplicative_of_additive {k : Token.Kind} {op : Operator}
    (h : k.additive? = some op) : k.multiplicative? = none := by
  cases k <;> simp_all [additive?, multiplicative?, operator?, Operator.isAdditive]

lemma Token.Kind.additive_of_operator {k : Token.Kind} (h : k.operator? = none) :
    k.additive? = none := by
  simp [additive?, h]

lemma Token.Kind.multiplicative_of_operator {k : Token.Kind} (h : k.operator? = none) :
    k.multiplicative? = none := by
  simp [multiplicative?, h]

namespace Parser

open Grammar

variable {s m r : TokenStream} {n : ℕ} {e : Expr}

section Steps

lemma sumRest_of_none (h : s.current.kind.additive? = none) : sumRest n e s = .ok e s := by
  rw [sumRest, bind_ok (operator_of_none h)]
  rfl

lemma productRest_of_none (h : s.current.kind.multiplicative? = none) :
    productRest n e s = .ok e s := by
  rw [productRest, bind_ok (operator_of_none h)]
  rfl

lemma sumRest_succ {op : Operator} {right : Expr} (h : s.current.kind.additive? = some op)
    (hp : product n s.advance = .ok right r) :
    sumRest (n + 1) e s = sumRest n (.binary e op right) r := by
  rw [sumRest, bind_ok (operator_of_some h)]
  exact bind_ok hp

lemma productRest_succ {op : Operator} {right : Expr}
    (h : s.current.kind.multiplicative? = some op) (hp : primary n s.advance = .ok right r) :
    productRest (n + 1) e s = productRest n (.binary e op right) r := by
  rw [productRest, bind_ok (operator_of_some h)]
  exact bind_ok hp

lemma primary_identifier (h : s.current.kind = .identifier) :
    primary n s = .ok (.identifier s.current.text) s.advance := by
  rw [primary, current_bind]
  simp only [h]
  rfl

lemma primary_number {x : Float} (h : s.current.kind = .number)
    (hx : Number.read? s.current.text = some x) :
    primary n s = .ok (.number x) s.advance := by
  rw [primary, current_bind]
  simp only [h, hx]
  rfl

lemma primary_null (h : s.current.kind = .keywordNull) : primary n s = .ok .null s.advance := by
  rw [primary, current_bind]
  simp only [h]
  rfl

lemma primary_parentheses (h : s.current.kind = .parenLeft)
    (he : expression n s.advance = .ok e r) (hr : r.current.kind = .parenRight) :
    primary n s = .ok e r.advance := by
  rw [primary, current_bind]
  simp only [h]
  change (expression n >>= _) s.advance = _
  rw [bind_ok he, bind_ok (expect_of_kind hr)]
  rfl

variable {value : Parser Expr} {key colon : Token} {ts : List Token}

lemma property_last (hk : key.kind = .identifier) (hc : colon.kind = .colon)
    (hs : s.Reads (key :: colon :: ts) r) (hv : value s.advance.advance = .ok e r)
    (hr : r.current.kind = .braceRight) :
    property value s = .ok ⟨key.text, some e⟩ r := by
  have hkey : s.current = key := hs.current_eq
  have hcolon : s.advance.current = colon := hs.advance.current_eq
  rw [property, bind_ok (expect_of_kind (hkey ▸ hk)), current_bind, hcolon, if_neg (by simp [hc]),
    bind_ok (expect_of_kind (hcolon ▸ hc)), bind_ok hv, current_bind, if_pos hr, hkey]
  rfl

lemma property_member (hk : key.kind = .identifier) (hc : colon.kind = .colon)
    (hs : s.Reads (key :: colon :: ts) r) (hv : value s.advance.advance = .ok e r)
    (hr : r.current.kind = .comma) :
    property value s = .ok ⟨key.text, some e⟩ r.advance := by
  have hkey : s.current = key := hs.current_eq
  have hcolon : s.advance.current = colon := hs.advance.current_eq
  rw [property, bind_ok (expect_of_kind (hkey ▸ hk)), current_bind, hcolon, if_neg (by simp [hc]),
    bind_ok (expect_of_kind (hcolon ▸ hc)), bind_ok hv, current_bind, if_neg (by simp [hr]),
    bind_ok (expect_of_kind hr), hkey]
  rfl

lemma statement_declaration (h : s.current.kind = .keywordVar ∨ s.current.kind = .keywordMut) :
    statement n s = declaration n s := by
  rw [statement, current_bind]
  rcases h with h | h <;> simp only [h]

lemma statement_expression (hv : s.current.kind ≠ .keywordVar) (hm : s.current.kind ≠ .keywordMut)
    (he : expression n s = .ok e r) : statement n s = .ok (.expression e) r := by
  have hr : (expression n >>= fun e => pure (Statement.expression e)) s =
      .ok (.expression e) r := by
    rw [bind_ok he]
    rfl
  rw [statement, current_bind]
  generalize s.current.kind = k at hv hm
  cases k
  case keywordVar => exact absurd rfl hv
  case keywordMut => exact absurd rfl hm
  all_goals exact hr

end Steps

/-- What the reader of a part does with the tokens of a derivation. A sum or a product is read up
to where its operators end, so the reader of its rest takes over with the levels that are left. -/
def Accepted (n : ℕ) (e : Expr) (s r : TokenStream) : Symbol → Prop
  | .expression =>
    r.current.kind.operator? = none → r.current.kind ≠ .assign → expression n s = .ok e r
  | .level => r.current.kind.operator? = none → level n s = .ok e r
  | .members => ∀ before ps, e = .object ps →
    objectRest (expression n) before s = .ok (.object (before.reverse ++ ps)) r
  | .sum k => r.current.kind.multiplicative? = none → Parser.sum n s = sumRest (n - k) e r
  | .product k => product n s = productRest (n - k) e r
  | .primary => primary n s = .ok e r

lemma accepted {X : Symbol} {ts : List Token} {c : ℕ} (h : Derives X ts e c) (hn : c ≤ n)
    (hs : s.Reads ts r) : Accepted n e s r X := by
  induction h generalizing n s r with
  | expression _ ih =>
    intro ho ha
    obtain ⟨n, rfl⟩ : ∃ m, n = m + 1 := ⟨n - 1, by omega⟩
    rw [expression, bind_ok (ih (by omega) hs ho), bind_ok (accept_of_ne ha)]
    rfl
  | assignment _ ha _ iht ihv =>
    intro ho hr
    obtain ⟨n, rfl⟩ : ∃ m, n = m + 1 := ⟨n - 1, by omega⟩
    obtain ⟨m, hm, hm'⟩ := hs.split
    have hsign := hm'.current_eq
    have ht := iht (n := n) (by omega) hm (by simp [hsign, ha, Token.Kind.operator?])
    have hv := ihv (n := n) (by omega) hm'.advance ho hr
    rw [expression, bind_ok ht, bind_ok (accept_of_kind (hsign ▸ ha))]
    exact bind_ok hv
  | object ho _ ih =>
    intro _
    rw [level_eq, bind_ok (accept_of_kind (hs.current_eq ▸ ho))]
    exact ih hn hs.advance [] _ rfl
  | level hd ih =>
    intro ho
    obtain ⟨t, us, rfl, ht⟩ := hd.exists_first
    have hb : s.current.kind ≠ .braceLeft := by
      intro hb
      rw [hs.current_eq] at hb
      simp [Symbol.firstKinds, hb] at ht
    rw [level_eq, bind_ok (accept_of_ne hb)]
    change Parser.sum n s = _
    rw [ih hn hs (Token.Kind.multiplicative_of_operator ho)]
    exact sumRest_of_none (Token.Kind.additive_of_operator ho)
  | closing hc =>
    intro before ps he
    obtain rfl := Expr.object.inj he
    rw [objectRest_of_brace before (hs.current_eq ▸ hc), hs.advance_eq, List.append_nil]
  | last hk hc _ hb ih =>
    intro before ps he
    obtain rfl := Expr.object.inj he
    rw [← List.cons_append, ← List.cons_append] at hs
    obtain ⟨m, hm, hm'⟩ := hs.split
    have hkey : s.current.kind = .identifier := hm.current_eq ▸ hk
    have hbrace : m.current.kind = .braceRight := hm'.current_eq ▸ hb
    have hv := ih hn hm.advance.advance (by simp [hbrace, Token.Kind.operator?]) (by simp [hbrace])
    rw [objectRest_property before (property_consumes (expression_sound n)) (by simp [hkey])
        (by simp [hkey]), bind_ok (property_last hk hc hm hv hbrace), objectRest_of_brace _ hbrace,
      hm'.advance_eq, List.reverse_cons]
  | member hk hc _ hm _ ih ihs =>
    intro before ps he
    obtain rfl := Expr.object.inj he
    rw [← List.cons_append, ← List.cons_append] at hs
    obtain ⟨m, hm₁, hm₂⟩ := hs.split
    have hkey : s.current.kind = .identifier := hm₁.current_eq ▸ hk
    have hcomma : m.current.kind = .comma := hm₂.current_eq ▸ hm
    have hv := ih (n := n) (by omega) hm₁.advance.advance
      (by simp [hcomma, Token.Kind.operator?]) (by simp [hcomma])
    rw [objectRest_property before (property_consumes (expression_sound n)) (by simp [hkey])
        (by simp [hkey]), bind_ok (property_member hk hc hm₁ hv hcomma),
      ihs (n := n) (by omega) hm₂.advance _ _ rfl]
    simp
  | summand _ ih =>
    intro hm
    rw [Parser.sum, bind_ok ((ih hn hs).trans (productRest_of_none hm)), Nat.sub_zero]
  | @add _ _ _ _ _ _ d k _ _ _ ha _ ihl ihr =>
    intro hm
    obtain ⟨m, hm₁, hm₂⟩ := hs.split
    have hsign := hm₂.current_eq
    have hleft := ihl (n := n) (by omega) hm₁
      (Token.Kind.multiplicative_of_additive (hsign ▸ ha))
    have hright := (ihr (n := n - (k + 1)) (by omega) hm₂.advance).trans (productRest_of_none hm)
    have hk : n - k = n - (k + 1) + 1 := by omega
    rw [hleft, hk]
    exact sumRest_succ (hsign ▸ ha) hright
  | factor _ ih =>
    change product _ _ = _
    rw [product, bind_ok (ih hn hs), Nat.sub_zero]
  | @multiply _ _ _ _ _ _ d k _ _ hm _ ihl ihr =>
    obtain ⟨m, hm₁, hm₂⟩ := hs.split
    have hsign := hm₂.current_eq
    have hleft := ihl (n := n) (by omega) hm₁
    have hright := ihr (n := n - (k + 1)) (by omega) hm₂.advance
    have hk : n - k = n - (k + 1) + 1 := by omega
    change product _ _ = _
    rw [hleft, hk]
    exact productRest_succ (hsign ▸ hm) hright
  | identifier hk =>
    obtain rfl := hs.current_eq
    exact hs.advance_eq ▸ primary_identifier hk
  | number hk hx =>
    obtain rfl := hs.current_eq
    exact hs.advance_eq ▸ primary_number hk hx
  | null hk =>
    obtain rfl := hs.current_eq
    exact hs.advance_eq ▸ primary_null hk
  | parentheses ho _ hc ih =>
    rw [← List.cons_append] at hs
    obtain ⟨m, hm, hm'⟩ := hs.split
    have hclose : m.current.kind = .parenRight := hm'.current_eq ▸ hc
    have he := ih hn hm.advance (by simp [hclose, Token.Kind.operator?]) (by simp [hclose])
    exact hm'.advance_eq ▸ primary_parentheses (hm.current_eq ▸ ho) he hclose

lemma expression_accepts {ts : List Token} {c : ℕ} (h : Derives .expression ts e c) (hn : c ≤ n)
    (hs : s.Reads ts r) (ho : r.current.kind.operator? = none) (ha : r.current.kind ≠ .assign) :
    expression n s = .ok e r :=
  accepted h hn hs ho ha

lemma statement_accepts {ts : List Token} {st : Statement} {c : ℕ} (h : DerivesStatement ts st c)
    (hn : c ≤ n) (hs : s.Reads ts r) (ho : r.current.kind.operator? = none)
    (ha : r.current.kind ≠ .assign) : statement n s = .ok st r := by
  cases h with
  | expression h =>
    obtain ⟨t, us, rfl, ht⟩ := h.exists_first
    rw [← hs.current_eq] at ht
    apply statement_expression _ _ (expression_accepts h hn hs ho ha)
    · intro hk
      simp [Symbol.firstKinds, hk] at ht
    · intro hk
      simp [Symbol.firstKinds, hk] at ht
  | @constant ts e c keyword name sign hk hname hsign h =>
    have h₁ : s.current = keyword := hs.current_eq
    have h₂ : s.advance.current = name := hs.advance.current_eq
    have h₃ : s.advance.advance.current = sign := hs.advance.advance.current_eq
    have hv := expression_accepts h hn hs.advance.advance.advance ho ha
    rw [statement_declaration (h₁ ▸ hk)]
    change (accept .keywordMut >>= _) s.advance = _
    rw [bind_ok (accept_of_ne (by simp [h₂, hname])), bind_ok (expect_of_kind (h₂ ▸ hname)),
      bind_ok (accept_of_kind (h₃ ▸ hsign)), h₂]
    exact bind_ok hv
  | @mutable ts e c keyword second name sign hk hm hname hsign h =>
    have h₁ : s.current = keyword := hs.current_eq
    have h₂ : s.advance.current = second := hs.advance.current_eq
    have h₃ : s.advance.advance.current = name := hs.advance.advance.current_eq
    have h₄ : s.advance.advance.advance.current = sign := hs.advance.advance.advance.current_eq
    have hv := expression_accepts h hn hs.advance.advance.advance.advance ho ha
    rw [statement_declaration (h₁ ▸ hk)]
    change (accept .keywordMut >>= _) s.advance = _
    rw [bind_ok (accept_of_kind (h₂ ▸ hm)), bind_ok (expect_of_kind (h₃ ▸ hname)),
      bind_ok (accept_of_kind (h₄ ▸ hsign)), h₃]
    exact bind_ok hv
  | @uninitialized keyword second name hk hm hname =>
    have h₁ : s.current = keyword := hs.current_eq
    have h₂ : s.advance.current = second := hs.advance.current_eq
    have h₃ : s.advance.advance.current = name := hs.advance.advance.current_eq
    have hr : s.advance.advance.advance = r := hs.advance.advance.advance_eq
    rw [statement_declaration (h₁ ▸ hk)]
    change (accept .keywordMut >>= _) s.advance = _
    rw [bind_ok (accept_of_kind (h₂ ▸ hm)), bind_ok (expect_of_kind (h₃ ▸ hname)), hr,
      bind_ok (accept_of_ne ha), h₃]
    rfl

lemma follow_of_derives {us : List Token} {body : List Statement} {c : ℕ}
    (h : DerivesProgram us body c) (hs : s.Reads us r) (hr : r.pending = []) :
    s.current.kind.operator? = none ∧ s.current.kind ≠ .assign := by
  cases h with
  | nil =>
    rw [hs.eq_of_nil, TokenStream.kind_of_pending_nil hr]
    exact ⟨rfl, by decide⟩
  | cons hst _ =>
    obtain ⟨t, us, rfl, ht⟩ := hst.exists_first
    rw [List.cons_append] at hs
    rw [hs.current_eq]
    simp only [Symbol.firstKinds, List.cons_append, List.nil_append, List.mem_cons,
      List.not_mem_nil, or_false] at ht
    rcases ht with ht | ht | ht | ht | ht | ht | ht <;> simp [ht, Token.Kind.operator?]

lemma statements_accepts {ts : List Token} {body : List Statement} {c : ℕ}
    (h : DerivesProgram ts body c) (hn : c ≤ n) (hs : s.Reads ts r) (hr : r.pending = [])
    (before : List Statement) :
    itemsUntil (· = .eof) (statement n) before s = .ok (before.reverse ++ body) r := by
  induction h generalizing s before with
  | nil =>
    obtain rfl := hs.eq_of_nil
    rw [itemsUntil_of_stop (by simp [TokenStream.kind_of_pending_nil hr]), List.append_nil]
  | cons hst hrest ih =>
    obtain ⟨m, hm₁, hm₂⟩ := hs.split
    obtain ⟨ho, ha⟩ := follow_of_derives hrest hm₂ hr
    have hst' := statement_accepts hst (n := n) (by omega) hm₁ ho ha
    obtain ⟨t, us, rfl, ht⟩ := hst.exists_first
    have hk : s.current.kind ≠ .eof := by
      intro hk
      rw [← hm₁.current_eq, hk] at ht
      simp [Symbol.firstKinds] at ht
    rw [itemsUntil_item (statement_consumes n) rfl (by simpa using hk), bind_ok hst',
      ih (by omega) hm₂]
    simp

end Parser

end Varlet
