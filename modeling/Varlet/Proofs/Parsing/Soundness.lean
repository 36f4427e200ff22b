import Varlet.Proofs.Parsing.Grammar
import Varlet.Proofs.Parsing.Reading

/-! Readers follow the grammar: what a reader accepts derives the tree it returns, within the levels
it was given, and where it stops with an error, the tokens before can be completed. -/

namespace Varlet.Parser

open Grammar

def Derivable (X : Symbol) (ts : List Token) : Prop := ∃ e n, Derives X ts e n

def Unreadable (ts : List Token) : Prop :=
  ∃ t ∈ ts, t.kind = .number ∧ Number.read? t.text = none

def Reports (ts : List Token) (r : TokenStream) : ParseError → Prop
  | .unexpectedToken t _ | .nestingTooDeep t => t = r.current
  | .missingInitializer t | .shorthandProperty t => ts.getLast? = some t ∧ t.kind = .identifier

def Stops (complete : List Token → Prop) (ts : List Token) (e : ParseError) (r : TokenStream) :
    Prop :=
  Unreadable ts ∨ (∃ us, complete (ts ++ us)) ∧ Reports ts r e

variable {s r : TokenStream} {e : ParseError} {ts us : List Token} {n : ℕ}
variable {C D : List Token → Prop}

lemma Unreadable.append (h : Unreadable us) : Unreadable (ts ++ us) := by
  obtain ⟨t, ht, h⟩ := h
  exact ⟨t, List.mem_append_right _ ht, h⟩

lemma Reports.append (h : Reports us r e) : Reports (ts ++ us) r e := by
  cases e with
  | unexpectedToken _ _ => exact h
  | nestingTooDeep _ => exact h
  | missingInitializer t => exact ⟨by simp [List.getLast?_append, h.1], h.2⟩
  | shorthandProperty t => exact ⟨by simp [List.getLast?_append, h.1], h.2⟩

lemma Stops.append (ts : List Token) (h : Stops C us e r)
    (hC : ∀ xs, C xs → ∃ ys, D (ts ++ xs ++ ys)) : Stops D (ts ++ us) e r := by
  rcases h with h | ⟨⟨xs, hx⟩, hr⟩
  · exact Or.inl h.append
  · obtain ⟨ys, hy⟩ := hC _ hx
    refine Or.inr ⟨⟨xs ++ ys, ?_⟩, hr.append⟩
    simpa only [List.append_assoc] using hy

lemma Stops.map (h : Stops C ts e r) (hC : ∀ xs, C xs → D xs) : Stops D ts e r :=
  h.append [] fun xs hx => ⟨[], by simpa using hC xs hx⟩

lemma Stops.of_complete (us : List Token) (h : C (ts ++ us)) (hr : Reports ts r e) :
    Stops C ts e r :=
  Or.inr ⟨⟨us, h⟩, hr⟩

def filler (kind : Token.Kind) : Token := ⟨kind, "", .start, .start⟩

lemma derives_filler : Derives .primary [filler .keywordNull] .null 0 := .null rfl

lemma derives_filler_product : Derives (.product 0) [filler .keywordNull] .null 0 :=
  .factor derives_filler

lemma derives_filler_expression : Derives .expression [filler .keywordNull] .null 1 :=
  .expression (.level (.summand derives_filler_product))

def Sound (X : ℕ → Symbol) (n : ℕ) (p : Parser Expr) : Prop :=
  ∀ s, Ends s p (fun ts e _ => ∃ k, ∃ c ≤ n, Derives (X k) ts e c)
    (Stops fun ts => ∃ k, Derivable (X k) ts)

/-- A reader of the rest of a chain that began with `left`. The levels that the operators have
taken so far are the `k` that are missing from `n`. -/
def RestSound (X : ℕ → Symbol) (n : ℕ) (left : Expr) (p : Parser Expr) : Prop :=
  ∀ s k ts c, Derives (X k) ts left c → c ≤ k + n →
    Ends s p (fun us e _ => ∃ j, ∃ d ≤ k + n, Derives (X j) (ts ++ us) e d)
      (fun us => Stops (fun ts => ∃ j, Derivable (X j) ts) (ts ++ us))

section Chain

variable {X Y : ℕ → Symbol} {sort : Token.Kind → Option Operator}

lemma chain_sound {p : Parser Expr} {q : Expr → Parser Expr}
    (hX : ∀ {k ts e c}, Derives (Y k) ts e c → Derives (X 0) ts e c) (hp : Sound Y n p)
    (hq : ∀ left, RestSound X n left (q left)) : Sound X n (p >>= q) := by
  intro s
  apply (hp s).bind
  · intro ts e r _ h
    apply h.map
    rintro xs ⟨k, e, c, hx⟩
    exact ⟨0, e, c, hX hx⟩
  · rintro ts left m _ ⟨k, c, hc, hl⟩
    have h := hq left m 0 ts c (hX hl) (by omega)
    simpa only [Nat.zero_add] using h

lemma rest_sound_zero (hs : sort .eof = none)
    (hX : ∀ {k j ts us left right c d op} {sign : Token}, Derives (X k) ts left c →
      sort sign.kind = some op → Derives (Y j) us right d →
      Derives (X (k + 1)) (ts ++ sign :: us) (.binary left op right) (max c (k + 1 + d)))
    (hY : Derives (Y 0) [filler .keywordNull] .null 0) (left : Expr) :
    RestSound X 0 left (do
      match ← operator? sort with
      | none => return left
      | some _ => tooDeep) := by
  intro s k ts c hl hc
  apply Ends.operator_bind hs
  · intro op hop
    have hd := hX hl hop hY
    apply Ends.tooDeep
    exact .of_complete [filler .keywordNull] ⟨k + 1, _, _, by simpa using hd⟩ rfl
  · intro _
    exact Ends.pure ⟨k, c, hc, by simpa using hl⟩

lemma rest_sound_succ {p : Parser Expr} {q : Expr → Parser Expr} {left : Expr}
    (hs : sort .eof = none)
    (hX : ∀ {k j ts us left right c d op} {sign : Token}, Derives (X k) ts left c →
      sort sign.kind = some op → Derives (Y j) us right d →
      Derives (X (k + 1)) (ts ++ sign :: us) (.binary left op right) (max c (k + 1 + d)))
    (hp : Sound Y n p)
    (hq : ∀ op right, RestSound X n (.binary left op right) (q (.binary left op right))) :
    RestSound X (n + 1) left (do
      match ← operator? sort with
      | none => return left
      | some op => do
        let right ← p
        q (.binary left op right)) := by
  intro s k ts c hl hc
  apply Ends.operator_bind hs
  · intro op hop
    apply (hp _).bind
    · intro us e r _ h
      rw [List.append_cons]
      apply h.append
      rintro xs ⟨j, right, d, hx⟩
      have hd := hX hl hop hx
      exact ⟨[], k + 1, _, _, by simpa using hd⟩
    · rintro us right m _ ⟨j, d, hd, hr⟩
      have h := hq op right m (k + 1) _ _ (hX hl hop hr) (by omega)
      have hk : k + 1 + n = k + (n + 1) := by omega
      simpa only [hk, List.append_assoc, List.cons_append] using h
  · intro _
    exact Ends.pure ⟨k, c, hc, by simpa using hl⟩

end Chain

def IsProperty (n : ℕ) (ts : List Token) (p : Property Expr) (r : TokenStream) : Prop :=
  ∃ key colon us e, ∃ c ≤ n, key.kind = .identifier ∧ colon.kind = .colon ∧
    Derives .expression us e c ∧ p = ⟨key.text, some e⟩ ∧
    (ts = key :: colon :: us ∧ r.current.kind = .braceRight ∨
      ∃ comma, comma.kind = .comma ∧ ts = key :: colon :: (us ++ [comma]))

lemma property_sound {value : Parser Expr} (hv : Sound (fun _ => .expression) n value)
    (s : TokenStream) :
    Ends s (property value) (IsProperty n) (Stops (Derivable .members)) := by
  have hb : (filler .braceRight).kind = .braceRight := rfl
  apply Ends.expect_bind (by decide)
  · intro hk
    set key := s.current
    have hd : Derivable .members [key, filler .colon, filler .keywordNull, filler .braceRight] :=
      ⟨_, _, .last hk rfl derives_filler_expression hb⟩
    apply Ends.current_bind
    split
    · exact Ends.throw (.of_complete _ hd ⟨rfl, hk⟩)
    · apply Ends.expect_bind (by decide)
      · intro hc
        set colon := s.advance.current
        apply (hv _).bind
        · intro us e r _ h
          apply h.append [key, colon]
          rintro xs ⟨_, v, c, hx⟩
          exact ⟨[filler .braceRight], _, _, .last hk hc hx hb⟩
        · rintro us v m _ ⟨_, c, hle, hx⟩
          have hd' : Derivable .members (key :: colon :: (us ++ [filler .braceRight])) :=
            ⟨_, _, .last hk hc hx hb⟩
          apply Ends.current_bind
          split
          · next hm =>
            refine Ends.pure ⟨key, colon, us, v, c, hle, hk, hc, hx, rfl, Or.inl ⟨?_, hm⟩⟩
            simp
          · apply Ends.expect_bind (by decide)
            · intro hm
              exact Ends.pure ⟨key, colon, us, v, c, hle, hk, hc, hx, rfl, Or.inr ⟨_, hm, rfl⟩⟩
            · intro _
              exact .of_complete [filler .braceRight] (by simpa using hd') rfl
      · intro _
        exact .of_complete _ hd rfl
  · intro _
    exact .of_complete [filler .braceRight] ⟨_, _, .closing hb⟩ rfl

def IsObjectRest (n : ℕ) (before : List (Property Expr)) (ts : List Token) (e : Expr) : Prop :=
  ∃ ps, e = .object (before.reverse ++ ps) ∧ ∃ c ≤ n, Derives .members ts (.object ps) c

lemma property_consumes {value : Parser Expr} (hv : Sound (fun _ => .expression) n value) :
    Consumes (property value) := by
  intro s p r h
  obtain ⟨ts, hs, key, colon, us, e, c, -, -, -, -, -, ht⟩ := (property_sound hv s).of_ok h
  have hlen := hs.length_eq
  rcases ht with ⟨rfl, -⟩ | ⟨comma, -, rfl⟩ <;> rw [List.length_cons] at hlen <;> omega

lemma objectRest_sound {value : Parser Expr} (hv : Sound (fun _ => .expression) n value)
    (s : TokenStream) (before : List (Property Expr)) :
    Ends s (objectRest value before) (fun ts e _ => IsObjectRest n before ts e)
      (Stops (Derivable .members)) := by
  induction hl : s.pending.length using Nat.strong_induction_on generalizing s before with
  | _ l ih =>
    by_cases hb : s.current.kind = .braceRight
    · apply Ends.of_result_ok (objectRest_of_brace before hb)
        (TokenStream.reads_advance (hb.trans_ne (by decide)))
      exact ⟨[], by simp, 0, n.zero_le, .closing hb⟩
    by_cases he : s.current.kind = .eof
    · apply Ends.of_result_error (objectRest_of_eof before he) (.refl s)
      exact .of_complete [filler .braceRight] ⟨_, _, .closing rfl⟩ rfl
    apply Ends.of_eq (objectRest_property before (property_consumes hv) hb he)
    apply (property_sound hv s).bind
    · exact fun ts e r _ h => h
    · rintro ts p m hs ⟨key, colon, us, v, c, hle, hk, hcolon, hx, rfl, ht⟩
      have hlen := hs.length_eq
      rcases ht with ⟨rfl, hm⟩ | ⟨comma, hcomma, rfl⟩
      · apply Ends.of_result_ok (objectRest_of_brace _ hm)
          (TokenStream.reads_advance (hm.trans_ne (by decide)))
        exact ⟨[⟨key.text, some v⟩], by simp, c, hle, .last hk hcolon hx hm⟩
      · rw [List.length_cons] at hlen
        apply (ih m.pending.length (by omega) m _ rfl).mono
        · rintro xs e r _ ⟨ps, rfl, d, hd, hps⟩
          refine ⟨⟨key.text, some v⟩ :: ps, by simp, max c d, max_le hle hd, ?_⟩
          simpa using Derives.member hk hcolon hx hcomma hps
        · intro xs e r _ h
          apply h.append
          rintro ys ⟨e, d, hy⟩
          obtain ⟨ps, rfl⟩ := hy.members_eq_object
          have hd := Derives.member hk hcolon hx hcomma hy
          exact ⟨[], _, _, by simpa using hd⟩

lemma level_sound (he : Sound (fun _ => .expression) n (expression n))
    (hsum : Sound .sum n (Parser.sum n)) : Sound (fun _ => .level) n (level n) := by
  intro s
  rw [level_eq]
  apply Ends.accept_bind (by decide)
  · intro ho
    apply (objectRest_sound he _ []).mono
    · rintro ts e r _ ⟨ps, rfl, c, hc, hps⟩
      exact ⟨0, c, hc, by simpa using Derives.object ho hps⟩
    · intro ts e r _ h
      apply h.append [s.current]
      rintro xs ⟨e, c, hx⟩
      obtain ⟨ps, rfl⟩ := hx.members_eq_object
      exact ⟨[], 0, _, _, by simpa using Derives.object ho hx⟩
  · intro _
    apply (hsum s).mono
    · rintro ts e r _ ⟨k, c, hc, h⟩
      exact ⟨0, c, hc, .level h⟩
    · intro ts e r _ h
      apply h.map
      rintro xs ⟨k, e, c, hx⟩
      exact ⟨0, e, c, .level hx⟩

lemma expression_sound_succ (hl : Sound (fun _ => .level) n (level n))
    (he : Sound (fun _ => .expression) n (expression n)) :
    Sound (fun _ => .expression) (n + 1) (expression (n + 1)) := by
  intro s
  rw [expression]
  apply (hl s).bind
  · intro ts e r _ h
    apply h.map
    rintro xs ⟨_, e, c, hx⟩
    exact ⟨0, e, c + 1, .expression hx⟩
  · rintro ts target m _ ⟨_, c, hc, ht⟩
    apply Ends.accept_bind (by decide)
    · intro ha
      apply (he _).bind
      · intro us e r _ h
        rw [List.append_cons]
        apply h.append
        rintro xs ⟨_, v, d, hx⟩
        exact ⟨[], 0, _, _, by simpa using Derives.assignment ht ha hx⟩
      · rintro us v r _ ⟨_, d, hd, hv⟩
        refine Ends.pure ⟨0, max c d + 1, by omega, ?_⟩
        simpa using Derives.assignment ht ha hv
    · intro _
      exact Ends.pure ⟨0, c + 1, by omega, by simpa using Derives.expression ht⟩

lemma primary_sound (he : Sound (fun _ => .expression) n (expression n)) :
    Sound (fun _ => .primary) n (primary n) := by
  intro s
  rw [primary]
  apply Ends.current_bind
  split
  · next hk =>
    apply Ends.skip_bind (hk.trans_ne (by decide))
    exact Ends.pure ⟨0, 0, n.zero_le, .identifier hk⟩
  · next hk =>
    apply Ends.skip_bind (hk.trans_ne (by decide))
    split
    · next x hx => exact Ends.pure ⟨0, 0, n.zero_le, .number hk hx⟩
    · next hx => exact Ends.throw (Or.inl ⟨_, List.mem_singleton_self _, hk, hx⟩)
  · next hk =>
    apply Ends.skip_bind (hk.trans_ne (by decide))
    apply (he _).bind
    · intro ts e r _ h
      apply h.append [s.current]
      rintro xs ⟨_, e, c, hx⟩
      exact ⟨[filler .parenRight], 0, _, _, .parentheses hk hx rfl⟩
    · rintro ts e m _ ⟨_, c, hc, hx⟩
      apply Ends.expect_bind (by decide)
      · intro hr
        exact Ends.pure ⟨0, c, hc, .parentheses hk hx hr⟩
      · intro _
        refine .of_complete [filler .parenRight] ⟨0, e, c, ?_⟩ rfl
        simpa using Derives.parentheses hk hx rfl
  · next hk =>
    apply Ends.skip_bind (hk.trans_ne (by decide))
    exact Ends.pure ⟨0, 0, n.zero_le, .null hk⟩
  · exact Ends.throw (.of_complete _ ⟨0, _, _, derives_filler⟩ rfl)

lemma expression_sound (n : ℕ) : Sound (fun _ => .expression) n (expression n) := by
  have hadd : Token.Kind.additive? .eof = none := rfl
  have hmul : Token.Kind.multiplicative? .eof = none := rfl
  refine (expression.mutual_induct
    (fun n => Sound (fun _ => .expression) n (expression n))
    (fun n => Sound (fun _ => .level) n (level n))
    (fun n => Sound .sum n (Parser.sum n))
    (fun n left => RestSound .sum n left (sumRest n left))
    (fun n => Sound .product n (product n))
    (fun n left => RestSound .product n left (productRest n left))
    (fun n => Sound (fun _ => .primary) n (primary n))
    ?_ ?_ ?_ ?_ ?_ ?_ ?_ ?_).1 n
  · intro s
    rw [expression]
    exact Ends.tooDeep (.of_complete _ ⟨0, _, _, derives_filler_expression⟩ rfl)
  · exact fun n hl he => expression_sound_succ hl he
  · exact fun n he hs => level_sound he hs
  · intro n hp hr
    rw [Parser.sum]
    exact chain_sound .summand hp hr
  · intro n left h
    rw [sumRest]
    cases n with
    | zero => exact rest_sound_zero hadd .add derives_filler_product left
    | succ n => exact rest_sound_succ hadd .add (h .add).1 fun op right => (h op).2 right
  · intro n hp hr
    rw [product]
    exact chain_sound .factor hp hr
  · intro n left h
    rw [productRest]
    cases n with
    | zero => exact rest_sound_zero hmul .multiply derives_filler left
    | succ n => exact rest_sound_succ hmul .multiply (h .add).1 fun op right => (h op).2 right
  · exact fun n he => primary_sound he

def IsStatement (ts : List Token) : Prop := ∃ st c, DerivesStatement ts st c

lemma declaration_sound (n : ℕ) (s : TokenStream)
    (hs : s.current.kind = .keywordVar ∨ s.current.kind = .keywordMut) :
    Ends s (declaration n) (fun ts st _ => ∃ c ≤ n, DerivesStatement ts st c)
      (Stops IsStatement) := by
  have hi : (filler .identifier).kind = .identifier := rfl
  have ha : (filler .assign).kind = .assign := rfl
  apply Ends.skip_bind (by rcases hs with hs | hs <;> simp [hs])
  set keyword := s.current
  apply Ends.accept_bind (by decide)
  · intro hm
    set second := s.advance.current
    apply Ends.expect_bind (by decide)
    · intro hn
      set name := s.advance.advance.current
      apply Ends.accept_bind (by decide)
      · intro hsign
        set sign := s.advance.advance.advance.current
        apply (expression_sound n _).bind
        · intro us e r _ h
          apply h.append [keyword, second, name, sign]
          rintro xs ⟨_, v, c, hx⟩
          exact ⟨[], _, _, by simpa using DerivesStatement.mutable hs hm hn hsign hx⟩
        · rintro us v r _ ⟨_, c, hc, hv⟩
          exact Ends.pure ⟨c, hc, by simpa using DerivesStatement.mutable hs hm hn hsign hv⟩
      · intro _
        exact Ends.pure ⟨0, n.zero_le, .uninitialized hs hm hn⟩
    · intro _
      exact .of_complete [filler .identifier] ⟨_, _, .uninitialized hs hm hi⟩ rfl
  · intro _
    apply Ends.expect_bind (by decide)
    · intro hn
      set name := s.advance.current
      apply Ends.accept_bind (by decide)
      · intro hsign
        set sign := s.advance.advance.current
        apply (expression_sound n _).bind
        · intro us e r _ h
          apply h.append [keyword, name, sign]
          rintro xs ⟨_, v, c, hx⟩
          exact ⟨[], _, _, by simpa using DerivesStatement.constant hs hn hsign hx⟩
        · rintro us v r _ ⟨_, c, hc, hv⟩
          exact Ends.pure ⟨c, hc, by simpa using DerivesStatement.constant hs hn hsign hv⟩
      · intro _
        exact Ends.throw (.of_complete [filler .assign, filler .keywordNull]
          ⟨_, _, .constant hs hn ha derives_filler_expression⟩ ⟨rfl, hn⟩)
    · intro _
      exact .of_complete [filler .identifier, filler .assign, filler .keywordNull]
        ⟨_, _, .constant hs hi ha derives_filler_expression⟩ rfl

lemma statement_sound (n : ℕ) (s : TokenStream) :
    Ends s (statement n) (fun ts st _ => ∃ c ≤ n, DerivesStatement ts st c)
      (Stops IsStatement) := by
  apply Ends.current_bind
  split
  · next hs => exact declaration_sound n s (Or.inl hs)
  · next hs => exact declaration_sound n s (Or.inr hs)
  · apply (expression_sound n s).bind
    · intro ts e r _ h
      apply h.map
      rintro xs ⟨_, v, c, hx⟩
      exact ⟨_, _, .expression hx⟩
    · rintro ts v r _ ⟨_, c, hc, hv⟩
      exact Ends.pure ⟨c, hc, by simpa using DerivesStatement.expression hv⟩

lemma statement_consumes (n : ℕ) : Consumes (statement n) := by
  intro s st r h
  obtain ⟨ts, hs, c, -, hst⟩ := (statement_sound n s).of_ok h
  obtain ⟨t, us, rfl, -⟩ := hst.exists_first
  have hlen := hs.length_eq
  rw [List.length_cons] at hlen
  omega

lemma statements_sound (n : ℕ) (s : TokenStream) (before : List Statement) :
    Ends s (itemsUntil (· = .eof) (statement n) before)
      (fun ts body r => r.pending = [] ∧
        ∃ rest, body = before.reverse ++ rest ∧ ∃ c ≤ n, DerivesProgram ts rest c)
      (Stops Grammatical) := by
  induction hl : s.pending.length using Nat.strong_induction_on generalizing s before with
  | _ l ih =>
    by_cases hk : s.current.kind = .eof
    · apply Ends.of_result_ok (itemsUntil_of_stop (by simp [hk]) before) (.refl s)
      exact ⟨TokenStream.pending_nil_of_kind hk, [], by simp, 0, n.zero_le, .nil⟩
    apply Ends.of_eq (itemsUntil_item (statement_consumes n) rfl (by simpa using hk) before)
    apply (statement_sound n s).bind
    · intro ts e r _ h
      apply h.map
      rintro xs ⟨st, c, hx⟩
      exact ⟨_, _, .single hx⟩
    · rintro ts st m hs ⟨c, hle, hst⟩
      obtain ⟨t, us, rfl, _⟩ := hst.exists_first
      have hlen := hs.length_eq
      rw [List.length_cons] at hlen
      apply (ih m.pending.length (by omega) m _ rfl).mono
      · rintro xs body r _ ⟨hr, rest, rfl, d, hd, hx⟩
        exact ⟨hr, st :: rest, by simp, max c d, max_le hle hd, .cons hst hx⟩
      · intro xs e r _ h
        apply h.append
        rintro ys ⟨rest, d, hy⟩
        exact ⟨[], _, _, by simpa using DerivesProgram.cons hst hy⟩

lemma programWithin_sound (n : ℕ) (s : TokenStream) :
    Ends s (programWithin n)
      (fun ts p r => r.pending = [] ∧ ∃ c ≤ n, DerivesProgram ts p.body c)
      (Stops Grammatical) := by
  apply (statements_sound n s []).bind
  · exact fun ts e r _ h => h
  · rintro ts body r _ ⟨hr, rest, rfl, c, hc, h⟩
    exact Ends.pure ⟨hr, c, hc, by simpa using h⟩

end Varlet.Parser
