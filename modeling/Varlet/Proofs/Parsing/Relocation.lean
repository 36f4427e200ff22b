import Varlet.Proofs.Lexing.Borders
import Varlet.Proofs.Parsing.Spelling

/-! Tokens that were moved. Readers look at the kinds and the texts of tokens and never at where
they stand, so layout between tokens has no meaning. -/

namespace Varlet

inductive ParseError.Moved (R : Token → Token → Prop) : ParseError → ParseError → Prop
  | unexpectedToken {t u expected} : R t u →
      Moved R (.unexpectedToken t expected) (.unexpectedToken u expected)
  | missingInitializer {t u} : R t u → Moved R (.missingInitializer t) (.missingInitializer u)
  | shorthandProperty {t u} : R t u → Moved R (.shorthandProperty t) (.shorthandProperty u)
  | nestingTooDeep {t u} : R t u → Moved R (.nestingTooDeep t) (.nestingTooDeep u)

variable {R : Token → Token → Prop}

namespace TokenStream

structure Moved (R : Token → Token → Prop) (s s' : TokenStream) : Prop where
  pending : List.Forall₂ R s.pending s'.pending
  final : R s.final s'.final

variable {s s' : TokenStream}

lemma Moved.current (h : s.Moved R s') : R s.current s'.current := by
  have hpending := h.pending
  rw [TokenStream.current, TokenStream.current]
  generalize s.pending = ts at hpending ⊢
  generalize s'.pending = us at hpending ⊢
  cases hpending with
  | nil => exact h.final
  | cons ht _ => exact ht

lemma Moved.advance (h : s.Moved R s') : s.advance.Moved R s'.advance where
  pending := by
    have htail := List.forall₂_drop 1 h.pending
    rwa [List.drop_one, List.drop_one] at htail
  final := h.final

end TokenStream

lemma Spells.moved_ofTokens {words others : List (Token.Kind × List Char)} {ts us : List Token}
    (hts : Spells words ts) (hus : Spells others us) (h : List.Forall₂ R ts us) :
    (TokenStream.ofTokens ts).Moved R (.ofTokens us) := by
  obtain ⟨ts, final, rfl, -, hts, hfinal⟩ := hts
  obtain ⟨us, final', rfl, -, hus, hfinal'⟩ := hus
  have hlength : ts.length = us.length := by simpa using h.length_eq
  have htake := List.forall₂_take us.length h
  have hdrop := List.forall₂_drop us.length h
  rw [List.take_left, List.take_left' hlength] at htake
  rw [List.drop_left, List.drop_left' hlength, List.forall₂_cons] at hdrop
  constructor
  · rwa [TokenStream.pending_ofTokens hts hfinal, TokenStream.pending_ofTokens hus hfinal']
  · rw [TokenStream.final_ofTokens hts hfinal, TokenStream.final_ofTokens hus hfinal']
    exact hdrop.1

namespace Parser

variable {α β γ δ : Type}

inductive EndsAlike (R : Token → Token → Prop) (P : α → β → Prop) :
    EStateM.Result ParseError TokenStream α → EStateM.Result ParseError TokenStream β → Prop
  | ok {a b r r'} : P a b → r.Moved R r' → EndsAlike R P (.ok a r) (.ok b r')
  | error {e e' r r'} : e.Moved R e' → EndsAlike R P (.error e r) (.error e' r')

def Moved (R : Token → Token → Prop) (P : α → β → Prop) (p : Parser α) (q : Parser β) : Prop :=
  ∀ s s', s.Moved R s' → EndsAlike R P (p s) (q s')

namespace Moved

section Rules

variable {P : α → β → Prop} {Q : γ → δ → Prop} {p : Parser α} {q : Parser β}

lemma pure {a : α} {b : β} (h : P a b) : Moved R P (Pure.pure a) (Pure.pure b) :=
  fun _ _ hs => .ok h hs

lemma throw {e e' : ParseError} (h : e.Moved R e') :
    Moved R P (MonadExcept.throw e) (MonadExcept.throw e') :=
  fun _ _ _ => .error h

lemma tooDeep : Moved R P Parser.tooDeep Parser.tooDeep :=
  fun _ _ hs => .error (.nestingTooDeep hs.current)

lemma bind {f : α → Parser γ} {g : β → Parser δ} (h : Moved R P p q)
    (hf : ∀ a b, P a b → Moved R Q (f a) (g b)) : Moved R Q (p >>= f) (q >>= g) := by
  intro s s' hs
  generalize hp : p s = x, hq : q s' = y at h
  have hxy : EndsAlike R P x y := hp ▸ hq ▸ h s s' hs
  cases hxy with
  | ok hab hr =>
    rw [bind_ok hp, bind_ok hq]
    exact hf _ _ hab _ _ hr
  | error he =>
    rw [bind_error hp, bind_error hq]
    exact .error he

lemma current : Moved R R current current := fun _ _ hs => .ok hs.current hs

lemma skip : Moved R Eq skip skip := fun _ _ hs => .ok rfl hs.advance

end Rules

section Steps

variable (hR : ∀ t u, R t u → t.word = u.word)

include hR

lemma kind_eq {t u : Token} (h : R t u) : t.kind = u.kind := (Token.word_eq_iff.mp (hR t u h)).1

lemma text_eq {t u : Token} (h : R t u) : t.text = u.text := (Token.word_eq_iff.mp (hR t u h)).2

lemma accept (kind : Token.Kind) : Moved R Eq (accept kind) (accept kind) := by
  intro s s' hs
  rw [Parser.accept, Parser.accept, kind_eq hR hs.current]
  split
  · exact .ok rfl hs.advance
  · exact .ok rfl hs

lemma expect (kind : Token.Kind) (expected : Expectation) :
    Moved R R (expect kind expected) (expect kind expected) := by
  intro s s' hs
  rw [Parser.expect, Parser.expect, kind_eq hR hs.current]
  split
  · exact .ok hs.current hs.advance
  · exact .error (.unexpectedToken hs.current)

lemma operator? (sort : Token.Kind → Option Operator) :
    Moved R Eq (operator? sort) (operator? sort) := by
  intro s s' hs
  rw [Parser.operator?, Parser.operator?, kind_eq hR hs.current]
  split
  · exact .ok rfl hs.advance
  · exact .ok rfl hs

lemma items {stop : Token.Kind → Bool} {item : Parser α} (hi : Moved R Eq item item)
    (before : List α) (count : ℕ) :
    Moved R Eq (items stop item before count) (items stop item before count) := by
  induction count generalizing before with
  | zero => exact pure rfl
  | succ count ih =>
    apply current.bind
    intro t u htu
    rw [kind_eq hR htu]
    split
    · exact pure rfl
    · apply hi.bind
      rintro a _ rfl
      exact ih (a :: before)

lemma itemsUntil {stop : Token.Kind → Bool} {item : Parser α} (hi : Moved R Eq item item)
    (before : List α) : Moved R Eq (itemsUntil stop item before) (itemsUntil stop item before) := by
  intro s s' hs
  change EndsAlike R Eq (Parser.items stop item before s.pending.length s)
    (Parser.items stop item before s'.pending.length s')
  rw [hs.pending.length_eq]
  exact items hR hi before _ s s' hs

lemma property {value : Parser Expr} (hv : Moved R Eq value value) :
    Moved R Eq (property value) (property value) := by
  apply (expect hR _ _).bind
  intro key key' hkey
  apply current.bind
  intro t u htu
  rw [kind_eq hR htu, text_eq hR hkey]
  split
  · exact throw (.shorthandProperty hkey)
  · apply (expect hR _ _).bind
    intro _ _ _
    apply hv.bind
    rintro e _ rfl
    apply current.bind
    intro t u htu
    rw [kind_eq hR htu]
    split
    · exact pure rfl
    · exact (expect hR _ _).bind fun _ _ _ => pure rfl

lemma rest {sort : Token.Kind → Option Operator} {operand : ℕ → Parser Expr}
    {rest : ℕ → Expr → Parser Expr} {left : Expr} {n : ℕ}
    (h : ∀ op i, n = i + 1 → Moved R Eq (operand i) (operand i) ∧
      ∀ right, Moved R Eq (rest i (.binary left op right)) (rest i (.binary left op right))) :
    let next : Parser Expr := do
      match ← Parser.operator? sort with
      | none => return left
      | some op =>
        match n with
        | 0 => Parser.tooDeep
        | n + 1 =>
          let right ← operand n
          rest n (.binary left op right)
    Moved R Eq next next := by
  apply (operator? hR sort).bind
  rintro (_ | op) _ rfl
  · exact pure rfl
  · cases n with
    | zero => exact tooDeep
    | succ n =>
      apply (h op n rfl).1.bind
      rintro right _ rfl
      exact (h op n rfl).2 right

lemma primary {n : ℕ} (he : Moved R Eq (expression n) (expression n)) :
    Moved R Eq (primary n) (primary n) := by
  rw [Parser.primary]
  apply current.bind
  intro t u htu
  rw [kind_eq hR htu, text_eq hR htu]
  split
  · exact skip.bind fun _ _ _ => pure rfl
  · apply skip.bind
    intro _ _ _
    split
    · exact pure rfl
    · exact throw (.unexpectedToken htu)
  · apply skip.bind
    intro _ _ _
    apply he.bind
    rintro e _ rfl
    exact (expect hR _ _).bind fun _ _ _ => pure rfl
  · exact skip.bind fun _ _ _ => pure rfl
  · exact throw (.unexpectedToken htu)

lemma expression (n : ℕ) : Moved R Eq (expression n) (expression n) := by
  refine (expression.mutual_induct
    (fun n => Moved R Eq (Parser.expression n) (Parser.expression n))
    (fun n => Moved R Eq (level n) (level n))
    (fun n => Moved R Eq (Parser.sum n) (Parser.sum n))
    (fun n left => Moved R Eq (sumRest n left) (sumRest n left))
    (fun n => Moved R Eq (product n) (product n))
    (fun n left => Moved R Eq (productRest n left) (productRest n left))
    (fun n => Moved R Eq (Parser.primary n) (Parser.primary n))
    ?_ ?_ ?_ ?_ ?_ ?_ ?_ ?_).1 n
  · rw [Parser.expression]
    exact tooDeep
  · intro n hl he
    rw [Parser.expression]
    apply hl.bind
    rintro target _ rfl
    apply (accept hR _).bind
    rintro b _ rfl
    split
    · apply he.bind
      rintro value _ rfl
      exact pure rfl
    · exact pure rfl
  · intro n he hs
    rw [level]
    apply (accept hR _).bind
    rintro b _ rfl
    split
    · apply (itemsUntil hR (property hR he) []).bind
      rintro ps _ rfl
      exact (expect hR _ _).bind fun _ _ _ => pure rfl
    · exact hs
  · intro n hp hr
    rw [Parser.sum]
    apply hp.bind
    rintro left _ rfl
    exact hr left
  · intro n left h
    rw [sumRest]
    apply rest hR
    rintro op i rfl
    exact h op
  · intro n hp hr
    rw [product]
    apply hp.bind
    rintro left _ rfl
    exact hr left
  · intro n left h
    rw [productRest]
    apply rest hR
    rintro op i rfl
    exact h op
  · intro n he
    exact primary hR he

lemma declaration (n : ℕ) : Moved R Eq (declaration n) (declaration n) := by
  apply skip.bind
  intro _ _ _
  apply (accept hR _).bind
  rintro mutable _ rfl
  apply (expect hR _ _).bind
  intro name name' hname
  rw [text_eq hR hname]
  apply (accept hR _).bind
  rintro b _ rfl
  split
  · apply (expression hR n).bind
    rintro e _ rfl
    exact pure rfl
  · split
    · exact pure rfl
    · exact throw (.missingInitializer hname)

lemma statement (n : ℕ) : Moved R Eq (statement n) (statement n) := by
  apply current.bind
  intro t u htu
  rw [kind_eq hR htu]
  split
  · exact declaration hR n
  · exact declaration hR n
  · apply (expression hR n).bind
    rintro e _ rfl
    exact pure rfl

lemma program : Moved R Eq program program := by
  apply (itemsUntil hR (statement hR maxNesting) []).bind
  rintro body _ rfl
  exact pure rfl

end Steps

end Moved

end Parser

def Token.Paired (ts us : List Token) (t u : Token) : Prop :=
  ∃ i : ℕ, ts[i]? = some t ∧ us[i]? = some u

lemma Token.Paired.word_eq {ts us : List Token} (h : us.map Token.word = ts.map Token.word)
    (t u : Token) (htu : Token.Paired ts us t u) : t.word = u.word := by
  obtain ⟨i, ht, hu⟩ := htu
  have hi := congrArg (·[i]?) h
  simpa [ht, hu] using hi.symm

lemma Token.forall₂_paired {ts us : List Token} (h : ts.length = us.length) :
    List.Forall₂ (Token.Paired ts us) ts us :=
  List.forall₂_iff_get.mpr ⟨h, fun i hi hi' => ⟨i, by simp [hi], by simp [hi']⟩⟩

lemma Program.ofTokens_moved {ts us : List Token} (hR : ∀ t u, R t u → t.word = u.word)
    (h : (TokenStream.ofTokens ts).Moved R (.ofTokens us)) :
    (∃ p, ofTokens ts = .ok p ∧ ofTokens us = .ok p) ∨
      ∃ e e', ofTokens ts = .error e ∧ ofTokens us = .error e' ∧ e.Moved R e' := by
  have hend := Parser.Moved.program hR _ _ h
  rw [ofTokens, ofTokens]
  generalize Parser.program (.ofTokens ts) = x at hend ⊢
  generalize Parser.program (.ofTokens us) = y at hend ⊢
  cases hend with
  | ok hp _ => exact .inl ⟨_, rfl, congrArg _ hp.symm⟩
  | error he => exact .inr ⟨_, _, rfl, rfl, he⟩

lemma parse_of_tokenize {source : String} {tokens : List Token} (h : tokenize source = .ok tokens) :
    parse source = (Program.ofTokens tokens).mapError .parse := by
  rw [parse, h]
  rfl

theorem parse_insert_layout (left right gap : String) (tokens : List Token) (i : ℕ)
    (h : tokenize (left ++ right) = .ok tokens) (hs : SplitsAt left right i)
    (hg : ∀ c ∈ gap.toList, Text.isLayout c) :
    ∃ tokens', tokenize (left ++ gap ++ right) = .ok tokens' ∧
      tokens'.map Token.word = tokens.map Token.word ∧
      ((∃ p, parse (left ++ right) = .ok p ∧ parse (left ++ gap ++ right) = .ok p) ∨
        ∃ e e', parse (left ++ right) = .error (.parse e) ∧
          parse (left ++ gap ++ right) = .error (.parse e') ∧
          e.Moved (Token.Paired tokens tokens') e') := by
  obtain ⟨words, hold, hnew⟩ := lexes_insert_layout hs hg
  obtain ⟨_, -, hspells⟩ := lexes_of_tokenize h
  obtain ⟨tokens', h', hspells'⟩ := tokenize_of_lexes hnew
  have hwords : tokens'.map Token.word = tokens.map Token.word :=
    (map_tokens_of_lexes h' hnew).trans (map_tokens_of_lexes h hold).symm
  refine ⟨tokens', h', hwords, ?_⟩
  have hlength : tokens.length = tokens'.length := by
    simpa using (congrArg List.length hwords).symm
  have hmoved := hspells.moved_ofTokens hspells' (Token.forall₂_paired hlength)
  rw [parse_of_tokenize h, parse_of_tokenize h']
  rcases Program.ofTokens_moved (Token.Paired.word_eq hwords) hmoved with
    ⟨p, hp, hp'⟩ | ⟨e, e', he, he', hee⟩
  · rw [hp, hp']
    exact .inl ⟨p, rfl, rfl⟩
  · rw [he, he']
    exact .inr ⟨e, e', rfl, rfl, hee⟩

theorem parse_insert_layout_unclosed :
    let left := "x // é\n/"
    let right := "* y"
    let gap := " ;\n"
    let slash : Token := ⟨.divide, "/", ⟨2, 1⟩, ⟨2, 2⟩⟩
    let star : Token := ⟨.multiply, "*", ⟨2, 2⟩, ⟨2, 3⟩⟩
    ∃ tokens tokens', tokenize (left ++ right) = .ok tokens ∧ tokens[1]? = some slash ∧
      .behind left.toList = slash.stop ∧ SplitsAt left right 1 ∧
      tokenize (left ++ gap ++ right) = .ok tokens' ∧
      tokens'.map Token.word = tokens.map Token.word ∧
      parse (left ++ right) = .error (.parse (.unexpectedToken star .expression)) ∧
      ∃ star', Token.Paired tokens tokens' star star' ∧
        parse (left ++ gap ++ right) = .error (.parse (.unexpectedToken star' .expression)) := by
  intro left right gap slash star
  have htokens : tokenize (left ++ right) = .ok [⟨.identifier, "x", ⟨1, 1⟩, ⟨1, 2⟩⟩, slash, star,
      ⟨.identifier, "y", ⟨2, 4⟩, ⟨2, 5⟩⟩, .endAt ⟨2, 5⟩] := by cbv
  have hparse : parse (left ++ right) = .error (.parse (.unexpectedToken star .expression)) := by cbv
  have hplace : .behind left.toList = slash.stop := by decide
  have hsplit : SplitsAt left right 1 :=
    (splitsAt_iff htokens (by decide)).mpr ⟨slash, rfl, .inr hplace⟩
  have hgap : ∀ c ∈ gap.toList, Text.isLayout c := by simp [gap, Text.isLayout, Text.isSpace]
  obtain ⟨tokens', h', hwords, ⟨p, hp, -⟩ | ⟨e, e', he, he', hmoved⟩⟩ :=
    parse_insert_layout left right gap _ 1 htokens hsplit hgap
  · simp [hparse] at hp
  · obtain rfl : ParseError.unexpectedToken star .expression = e := by simpa [hparse] using he
    cases hmoved with
    | unexpectedToken hstar =>
      exact ⟨_, tokens', htokens, rfl, hplace, hsplit, h', hwords, hparse, _, hstar, he'⟩

end Varlet
