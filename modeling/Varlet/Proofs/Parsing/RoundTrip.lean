import Varlet.Proofs.Numbers.Written
import Varlet.Proofs.Parsing.Spelling

/-! Printed programs. A printed expression is a primary, so its tokens are read back into the same
tree; a tree of height `h` takes at most `2 * h + 1` levels. -/

namespace Varlet

open Text Grammar

def IsName (text : String) : Prop :=
  text ≠ "" ∧ (∀ c ∈ text.toList, isLetter c) ∧ text ∉ ["var", "mut", "null"]

def IsNumeral (text : String) : Prop :=
  text ≠ "" ∧ ∀ c ∈ text.toList, isDigit c

mutual

def Expr.rank : Expr → ℕ
  | .assignment target value => max target.rank value.rank + 1
  | .binary left _ right => max left.rank right.rank + 1
  | .identifier _ | .number _ | .null => 0
  | .object ps => propertiesRank ps + 1

def propertiesRank : List (Property Expr) → ℕ
  | [] => 0
  | ⟨_, none⟩ :: ps => propertiesRank ps
  | ⟨_, some e⟩ :: ps => max e.rank (propertiesRank ps)

end

mutual

inductive Prints : Expr → String → Prop
  | number {x digits} : IsNumeral digits → Number.read? digits = some x →
      Prints (.number x) digits
  | identifier {name} : IsName name → Prints (.identifier name) name
  | null : Prints .null "null"
  | binary {left op right s t} : Prints left s → Prints right t →
      Prints (.binary left op right) ("(" ++ (s ++ " " ++ op.symbol ++ " " ++ t) ++ ")")
  | assignment {target value s t} : Prints target s → Prints value t →
      Prints (.assignment target value) ("(" ++ (s ++ " = " ++ t) ++ ")")
  | object {ps s} : PrintsProperties ps s →
      Prints (.object ps) ("(" ++ ("\x7b" ++ s ++ "\x7d") ++ ")")

inductive PrintsProperties : List (Property Expr) → String → Prop
  | nil : PrintsProperties [] ""
  | single {key e s} : IsName key → Prints e s →
      PrintsProperties [⟨key, some e⟩] (key ++ ": " ++ s)
  | cons {key e p ps s t} : IsName key → Prints e s → PrintsProperties (p :: ps) t →
      PrintsProperties (⟨key, some e⟩ :: p :: ps) (key ++ ": " ++ s ++ ", " ++ t)

end

inductive PrintsStatement : Statement → String → Prop
  | expression {e s} : Prints e s → PrintsStatement (.expression e) s
  | constant {name e s} : IsName name → Prints e s →
      PrintsStatement (.declaration false name (some e)) ("var " ++ name ++ " = " ++ s)
  | mutable {name e s} : IsName name → Prints e s →
      PrintsStatement (.declaration true name (some e)) ("var mut " ++ name ++ " = " ++ s)
  | uninitialized {name} : IsName name →
      PrintsStatement (.declaration true name none) ("var mut " ++ name)

inductive PrintsStatements : List Statement → String → Prop
  | nil : PrintsStatements [] ""
  | cons {st ss s t} : PrintsStatement st s → PrintsStatements ss t →
      PrintsStatements (st :: ss) (s ++ ";\n" ++ t)

def Program.Prints (p : Program) (text : String) : Prop := PrintsStatements p.body text

lemma IsName.isWord {name : String} (h : IsName name) : IsWord [] .identifier name.toList [] := by
  obtain ⟨hne, hletters, hreserved⟩ := h
  refine .identifier ⟨by simpa using hne, hletters, by simp, by simp⟩ ?_
  simpa [String.ext_iff] using hreserved

lemma IsNumeral.isWord {digits : String} (h : IsNumeral digits) :
    IsWord [] .number digits.toList [] :=
  .number ⟨by simpa using h.1, h.2, by simp, by simp⟩

lemma IsNumeral.exists_read {digits : String} (h : IsNumeral digits) :
    ∃ x, Number.read? digits = some x := by
  have hne : digits.toList ≠ [] := by simpa using h.1
  have hdecimal := Number.Decimal.read?_of_digits hne h.2
  obtain ⟨c, cs, hcons⟩ := List.exists_cons_of_ne_nil hne
  have hc : isDigit c := h.2 c (hcons ▸ List.mem_cons_self)
  rw [hcons] at hdecimal
  have hread := Number.read?_of_decimal hc hdecimal false
  rw [if_neg Bool.false_ne_true, ← hcons, String.ofList_toList] at hread
  exact ⟨_, hread⟩

lemma isWord_null : IsWord [] .keywordNull "null".toList [] := by
  have h : Token.Kind.keywordNull ≠ .eof := by decide
  exact isWord_sample h

lemma isWord_var : IsWord [] .keywordVar ['v', 'a', 'r'] [] := by
  have h : Token.Kind.keywordVar ≠ .eof := by decide
  exact isWord_sample h

lemma isWord_mut : IsWord [] .keywordMut ['m', 'u', 't'] [] := by
  have h : Token.Kind.keywordMut ≠ .eof := by decide
  exact isWord_sample h

lemma Operator.exists_sign (op : Operator) :
    ∃ c kind, op.symbol.toList = [c] ∧ (c, kind) ∈ punctuation ∧ kind.operator? = some op := by
  cases op with
  | add => exact ⟨'+', .plus, rfl, by decide, rfl⟩
  | subtract => exact ⟨'-', .minus, rfl, by decide, rfl⟩
  | multiply => exact ⟨'*', .multiply, rfl, by decide, rfl⟩
  | divide => exact ⟨'/', .divide, rfl, by decide, rfl⟩
  | modulo => exact ⟨'%', .modulo, rfl, by decide, rfl⟩

namespace Lexes

variable {text : List Char} {words : List (Token.Kind × List Char)}

lemma sign {c : Char} {kind : Token.Kind} (hc : (c, kind) ∈ punctuation) (h : Lexes text words) :
    Lexes (c :: text) ((kind, [c]) :: words) :=
  .word (Lexeme.next?_of_punctuation hc) h

lemma blank (h : Lexes text words) : Lexes (' ' :: text) words := .layout rfl h

end Lexes

def ReadsAs (text : List Char) (words : List (Token.Kind × List Char)) : Prop :=
  ∀ c right others, Single c → Lexes (c :: right) others →
    Lexes (text ++ c :: right) (words ++ others)

lemma IsWord.readsAs {word : List Char} {kind : Token.Kind} (h : IsWord [] kind word []) :
    ReadsAs word [(kind, word)] := by
  intro c right others hc hr
  have hword : IsWord [] kind word (c :: right) := by
    apply h.between
    · simp
    · rintro _ ⟨rfl⟩
      exact hc
  exact hr.isWord hword

lemma single_sign {c : Char} {kind : Token.Kind} (hc : (c, kind) ∈ punctuation) : Single c :=
  .inr ⟨kind, hc⟩

namespace ReadsAs

variable {text more : List Char} {words others : List (Token.Kind × List Char)}

lemma signed {c : Char} {kind : Token.Kind} (h : ReadsAs text words)
    (hc : (c, kind) ∈ punctuation) (h' : ReadsAs more others) :
    ReadsAs (text ++ ' ' :: c :: ' ' :: more) (words ++ (kind, [c]) :: others) := by
  intro d right rest hd hr
  have hmore : Lexes (c :: ' ' :: (more ++ d :: right)) ((kind, [c]) :: (others ++ rest)) :=
    .sign hc (.blank (h' d right rest hd hr))
  simpa using h ' ' _ _ single_blank hmore.blank

lemma keyword {kind : Token.Kind} {word : List Char} (hw : IsWord [] kind word [])
    (h : ReadsAs text words) : ReadsAs (word ++ ' ' :: text) ((kind, word) :: words) := by
  intro c right others hc hr
  simpa using hw.readsAs ' ' _ _ single_blank (h c right others hc hr).blank

lemma parenthesized (h : ReadsAs text words) :
    ReadsAs ('(' :: (text ++ [')'])) ((.parenLeft, ['(']) :: (words ++ [(.parenRight, [')'])])) := by
  have hopen : ('(', Token.Kind.parenLeft) ∈ punctuation := by decide
  have hclose : (')', Token.Kind.parenRight) ∈ punctuation := by decide
  intro c right others _ hr
  simpa using Lexes.sign hopen (h ')' _ _ (single_sign hclose) (.sign hclose hr))

lemma comma (h : ReadsAs text words) (h' : Lexes more others) :
    Lexes (text ++ ',' :: ' ' :: more) (words ++ (.comma, [',']) :: others) := by
  have hcomma : (',', Token.Kind.comma) ∈ punctuation := by decide
  exact h ',' _ _ (single_sign hcomma) (.sign hcomma h'.blank)

end ReadsAs

lemma IsName.lexes_field {key : String} {text : List Char} {words : List (Token.Kind × List Char)}
    (hk : IsName key) (h : Lexes text words) :
    Lexes (key.toList ++ ':' :: ' ' :: text)
      ((.identifier, key.toList) :: (.colon, [':']) :: words) := by
  have hcolon : (':', Token.Kind.colon) ∈ punctuation := by decide
  exact hk.isWord.readsAs ':' _ _ (single_sign hcolon) (.sign hcolon h.blank)

lemma braceLeft_mem : ('{', Token.Kind.braceLeft) ∈ punctuation := by decide

lemma braceRight_mem : ('}', Token.Kind.braceRight) ∈ punctuation := by decide

namespace Grammar

variable {ts us : List Token} {e left right : Expr} {n m : ℕ} {sign : Token}

lemma Derives.ofPrimary (h : Derives .primary ts e n) : Derives .expression ts e (n + 1) :=
  .expression (.level (.summand (.factor h)))

lemma Derives.assignPrimary (hl : Derives .primary ts left n) (hs : sign.kind = .assign)
    (hr : Derives .primary us right m) :
    Derives .expression (ts ++ sign :: us) (.assignment left right) (max n (m + 1) + 1) :=
  .assignment (.level (.summand (.factor hl))) hs hr.ofPrimary

lemma Derives.binaryPrimary {op : Operator} (hl : Derives .primary ts left n)
    (hs : sign.kind.operator? = some op) (hr : Derives .primary us right m) :
    Derives .expression (ts ++ sign :: us) (.binary left op right) (max n (m + 1) + 1) := by
  rw [Nat.add_comm m 1]
  by_cases hop : op.isAdditive
  · have hsign : sign.kind.additive? = some op := by simp [Token.Kind.additive?, hs, hop]
    exact .expression (.level (.add (.summand (.factor hl)) hsign (.factor hr)))
  · have hsign : sign.kind.multiplicative? = some op := by
      simp [Token.Kind.multiplicative?, hs, hop]
    exact .expression (.level (.summand (.multiply (.factor hl) hsign hr)))

end Grammar

def Spelled (e : Expr) (text : String) : Prop :=
  ∃ words, ReadsAs text.toList words ∧ ∃ n ≤ 2 * e.rank, Derives .primary (bare words) e n

def SpelledProperties (ps : List (Property Expr)) (text : String) : Prop :=
  ∃ words, ReadsAs (text.toList ++ ['}']) words ∧
    ∃ n ≤ 2 * propertiesRank ps + 1, Derives .members (bare words) (.object ps) n

section

variable {e left right : Expr} {s t key : String} {p : Property Expr} {ps : List (Property Expr)}
variable {words : List (Token.Kind × List Char)} {n : ℕ}

lemma spelled_word {kind : Token.Kind} (hw : IsWord [] kind s.toList [])
    (hd : Derives .primary [.ofWord (kind, s.toList)] e 0) : Spelled e s :=
  ⟨_, hw.readsAs, 0, Nat.zero_le _, hd⟩

lemma spelled_parenthesized (hw : ReadsAs s.toList words)
    (hd : Derives .expression (bare words) e n) (hn : n ≤ 2 * e.rank) :
    Spelled e ("(" ++ s ++ ")") := by
  refine ⟨_, by simpa using hw.parenthesized, n, hn, ?_⟩
  simpa using Derives.parentheses (Token.kind_ofWord (.parenLeft, ['('])) hd
    (Token.kind_ofWord (.parenRight, [')']))

lemma spelled_binary (op : Operator) (hl : Spelled left s) (hr : Spelled right t) :
    Spelled (.binary left op right) ("(" ++ (s ++ " " ++ op.symbol ++ " " ++ t) ++ ")") := by
  obtain ⟨words, hw, n, hn, hdl⟩ := hl
  obtain ⟨others, hw', m, hm, hdr⟩ := hr
  obtain ⟨c, kind, hsymbol, hc, hkind⟩ := op.exists_sign
  have hsign : (Token.ofWord (kind, [c])).kind.operator? = some op := hkind
  apply spelled_parenthesized
  · simpa [hsymbol] using hw.signed hc hw'
  · simpa using hdl.binaryPrimary hsign hdr
  · simp only [Expr.rank]
    omega

lemma spelled_assignment (hl : Spelled left s) (hr : Spelled right t) :
    Spelled (.assignment left right) ("(" ++ (s ++ " = " ++ t) ++ ")") := by
  obtain ⟨words, hw, n, hn, hdl⟩ := hl
  obtain ⟨others, hw', m, hm, hdr⟩ := hr
  have hc : ('=', Token.Kind.assign) ∈ punctuation := by decide
  apply spelled_parenthesized
  · simpa using hw.signed hc hw'
  · simpa using hdl.assignPrimary (Token.kind_ofWord (.assign, ['='])) hdr
  · simp only [Expr.rank]
    omega

lemma spelled_object (h : SpelledProperties ps s) :
    Spelled (.object ps) ("(" ++ ("\x7b" ++ s ++ "\x7d") ++ ")") := by
  obtain ⟨words, hw, n, hn, hd⟩ := h
  have hread : ReadsAs ('{' :: (s.toList ++ ['}'])) ((.braceLeft, ['{']) :: words) :=
    fun c right others hs hr => .sign braceLeft_mem (hw c right others hs hr)
  apply spelled_parenthesized
  · simpa using hread
  · simpa using Derives.expression (.object (Token.kind_ofWord (.braceLeft, ['{'])) hd)
  · simp only [Expr.rank]
    omega

lemma spelledProperties_nil : SpelledProperties [] "" :=
  ⟨[(.braceRight, ['}'])], fun _ _ _ _ hr => .sign braceRight_mem hr, 0, Nat.zero_le _,
    .closing rfl⟩

lemma spelledProperties_single (hk : IsName key) (he : Spelled e s) :
    SpelledProperties [⟨key, some e⟩] (key ++ ": " ++ s) := by
  obtain ⟨words, hw, n, hn, hd⟩ := he
  refine ⟨(.identifier, key.toList) :: (.colon, [':']) :: (words ++ [(.braceRight, ['}'])]), ?_,
    n + 1, ?_, ?_⟩
  · intro c right others _ hr
    have hvalue := hw '}' _ _ (single_sign braceRight_mem) (.sign braceRight_mem hr)
    simpa using hk.lexes_field hvalue
  · simp only [propertiesRank]
    omega
  · have hmembers := Derives.last (Token.kind_ofWord (.identifier, key.toList))
      (Token.kind_ofWord (.colon, [':'])) hd.ofPrimary (Token.kind_ofWord (.braceRight, ['}']))
    simpa [Token.text_ofWord] using hmembers

lemma spelledProperties_cons (hk : IsName key) (he : Spelled e s)
    (hps : SpelledProperties ps t) :
    SpelledProperties (⟨key, some e⟩ :: ps) (key ++ ": " ++ s ++ ", " ++ t) := by
  obtain ⟨words, hw, n, hn, hd⟩ := he
  obtain ⟨others, hw', m, hm, hd'⟩ := hps
  refine ⟨(.identifier, key.toList) :: (.colon, [':']) :: (words ++ (.comma, [',']) :: others), ?_,
    max (n + 1) m, ?_, ?_⟩
  · intro c right rest hc hr
    simpa using hk.lexes_field (hw.comma (hw' c right rest hc hr))
  · simp only [propertiesRank]
    omega
  · have hmembers := Derives.member (Token.kind_ofWord (.identifier, key.toList))
      (Token.kind_ofWord (.colon, [':'])) hd.ofPrimary (Token.kind_ofWord (.comma, [','])) hd'
    simpa [Token.text_ofWord] using hmembers

lemma Prints.spelled (h : Prints e s) : Spelled e s := by
  refine @Prints.rec (fun e s _ => Spelled e s) (fun ps s _ => SpelledProperties ps s) ?_ ?_ ?_ ?_ ?_
    ?_ ?_ ?_ ?_ e s h
  · intro x digits hdigits hx
    refine spelled_word hdigits.isWord (.number rfl ?_)
    rwa [Token.text_ofWord]
  · intro name hname
    have hd := Derives.identifier (Token.kind_ofWord (.identifier, name.toList))
    rw [Token.text_ofWord] at hd
    exact spelled_word hname.isWord hd
  · exact spelled_word isWord_null (.null rfl)
  · exact fun {_ op _ _ _} _ _ hl hr => spelled_binary op hl hr
  · exact fun _ _ ht hv => spelled_assignment ht hv
  · exact fun _ hps => spelled_object hps
  · exact spelledProperties_nil
  · exact fun hk _ he => spelledProperties_single hk he
  · exact fun hk _ _ he hps => spelledProperties_cons hk he hps

end

def SpelledStatement (st : Statement) (text : String) : Prop :=
  ∃ words, ReadsAs text.toList words ∧ ∃ n ≤ maxNesting, DerivesStatement (bare words) st n

lemma PrintsStatement.spelled {st : Statement} {s : String} (h : PrintsStatement st s)
    (hr : ∀ e ∈ st.expression?, e.rank ≤ 1023) : SpelledStatement st s := by
  have hbound {n r : ℕ} (hn : n ≤ 2 * r) (hr : r ≤ 1023) : n + 1 ≤ maxNesting := by
    simp only [maxNesting]
    omega
  have hassign : ('=', Token.Kind.assign) ∈ punctuation := by decide
  have hkind := Token.kind_ofWord (.keywordVar, ['v', 'a', 'r'])
  have hkind' := Token.kind_ofWord (.keywordMut, ['m', 'u', 't'])
  cases h with
  | expression he =>
    obtain ⟨words, hw, n, hn, hd⟩ := he.spelled
    exact ⟨words, hw, n + 1, hbound hn (hr _ rfl), .expression hd.ofPrimary⟩
  | @constant name e s hname he =>
    obtain ⟨words, hw, n, hn, hd⟩ := he.spelled
    have hread := (hname.isWord.readsAs.signed hassign hw).keyword isWord_var
    have hst := DerivesStatement.constant (.inl hkind)
      (Token.kind_ofWord (.identifier, name.toList)) (Token.kind_ofWord (.assign, ['=']))
      hd.ofPrimary
    rw [Token.text_ofWord] at hst
    refine ⟨(.keywordVar, ['v', 'a', 'r']) :: (.identifier, name.toList) :: (.assign, ['=']) :: words,
      by simpa using hread, n + 1, hbound hn (hr _ rfl), hst⟩
  | @mutable name e s hname he =>
    obtain ⟨words, hw, n, hn, hd⟩ := he.spelled
    have hread := ((hname.isWord.readsAs.signed hassign hw).keyword isWord_mut).keyword isWord_var
    have hst := DerivesStatement.mutable (.inl hkind) hkind'
      (Token.kind_ofWord (.identifier, name.toList)) (Token.kind_ofWord (.assign, ['=']))
      hd.ofPrimary
    rw [Token.text_ofWord] at hst
    refine ⟨(.keywordVar, ['v', 'a', 'r']) :: (.keywordMut, ['m', 'u', 't']) ::
      (.identifier, name.toList) :: (.assign, ['=']) :: words,
      by simpa using hread, n + 1, hbound hn (hr _ rfl), hst⟩
  | @uninitialized name hname =>
    have hread := (hname.isWord.readsAs.keyword isWord_mut).keyword isWord_var
    have hst := DerivesStatement.uninitialized (.inl hkind) hkind'
      (Token.kind_ofWord (.identifier, name.toList))
    rw [Token.text_ofWord] at hst
    refine ⟨[(.keywordVar, ['v', 'a', 'r']), (.keywordMut, ['m', 'u', 't']),
      (.identifier, name.toList)], by simpa using hread, 0, Nat.zero_le _, hst⟩

lemma PrintsStatements.spelled {ss : List Statement} {s : String} (h : PrintsStatements ss s)
    (hr : ∀ st ∈ ss, ∀ e ∈ st.expression?, e.rank ≤ 1023) :
    ∃ words, Lexes s.toList words ∧ ∃ n ≤ maxNesting, DerivesProgram (bare words) ss n := by
  induction h with
  | nil => exact ⟨[], .nil, 0, Nat.zero_le _, .nil⟩
  | cons hst _ ih =>
    rw [List.forall_mem_cons] at hr
    obtain ⟨words, hw, n, hn, hd⟩ := hst.spelled hr.1
    obtain ⟨others, hrest, m, hm, hd'⟩ := ih hr.2
    have hend : Lexes (';' :: '\n' :: _) others := .layout rfl (.layout rfl hrest)
    refine ⟨words ++ others, ?_, max n m, max_le hn hm, ?_⟩
    · simpa using hw ';' _ _ (.inl rfl) hend
    · rw [bare_append]
      exact .cons hd hd'

lemma parse_of_prints {p : Program} {s : String} (h : p.Prints s)
    (hr : ∀ st ∈ p.body, ∀ e ∈ st.expression?, e.rank ≤ 1023) : parse s = .ok p := by
  obtain ⟨words, hlexes, n, hn, hd⟩ := h.spelled hr
  have hfree := Comment.blankAll_of_free (hlexes.free hd.isChain)
  exact parse_of_lexes (hfree.symm ▸ hlexes) hn hd

mutual

def Expr.Printable : Expr → Prop
  | .assignment target value => target.Printable ∧ value.Printable
  | .binary left _ right => left.Printable ∧ right.Printable
  | .identifier name => IsName name
  | .number x => ∃ digits, IsNumeral digits ∧ Number.read? digits = some x
  | .null => True
  | .object ps => PrintableProperties ps

def PrintableProperties : List (Property Expr) → Prop
  | [] => True
  | ⟨_, none⟩ :: _ => False
  | ⟨key, some e⟩ :: ps => IsName key ∧ e.Printable ∧ PrintableProperties ps

end

def Statement.Printable : Statement → Prop
  | .declaration mutable name initializer =>
    IsName name ∧ (initializer = none → mutable) ∧
      ∀ e ∈ initializer, e.Printable ∧ e.rank ≤ 1023
  | .expression e => e.Printable ∧ e.rank ≤ 1023

def Program.Printable (p : Program) : Prop := ∀ st ∈ p.body, st.Printable

mutual

lemma Expr.Printable.exists_prints : ∀ e : Expr, e.Printable → ∃ s, Prints e s
  | .assignment target value, h => by
    obtain ⟨s, hs⟩ := Expr.Printable.exists_prints target h.1
    obtain ⟨t, ht⟩ := Expr.Printable.exists_prints value h.2
    exact ⟨_, .assignment hs ht⟩
  | .binary left op right, h => by
    obtain ⟨s, hs⟩ := Expr.Printable.exists_prints left h.1
    obtain ⟨t, ht⟩ := Expr.Printable.exists_prints right h.2
    exact ⟨_, .binary hs ht⟩
  | .identifier name, h => ⟨_, .identifier h⟩
  | .number x, h => by
    obtain ⟨digits, hdigits, hx⟩ := h
    exact ⟨digits, .number hdigits hx⟩
  | .null, _ => ⟨_, .null⟩
  | .object ps, h => by
    obtain ⟨s, hs⟩ := PrintableProperties.exists_prints ps h
    exact ⟨_, .object hs⟩

lemma PrintableProperties.exists_prints :
    ∀ ps : List (Property Expr), PrintableProperties ps → ∃ s, PrintsProperties ps s
  | [], _ => ⟨_, .nil⟩
  | ⟨_, none⟩ :: _, h => h.elim
  | ⟨key, some e⟩ :: ps, h => by
    obtain ⟨s, hs⟩ := Expr.Printable.exists_prints e h.2.1
    obtain ⟨t, ht⟩ := PrintableProperties.exists_prints ps h.2.2
    cases ps with
    | nil => exact ⟨_, .single h.1 hs⟩
    | cons p ps => exact ⟨_, .cons h.1 hs ht⟩

end

lemma Statement.Printable.exists_prints {st : Statement} (h : st.Printable) :
    ∃ s, PrintsStatement st s := by
  cases st with
  | expression e =>
    obtain ⟨s, hs⟩ := Expr.Printable.exists_prints e h.1
    exact ⟨s, .expression hs⟩
  | declaration mutable name initializer =>
    obtain ⟨hname, hmutable, hinitializer⟩ := h
    cases initializer with
    | none =>
      obtain rfl : mutable = true := hmutable rfl
      exact ⟨_, .uninitialized hname⟩
    | some e =>
      obtain ⟨s, hs⟩ := Expr.Printable.exists_prints e (hinitializer e rfl).1
      cases mutable with
      | false => exact ⟨_, .constant hname hs⟩
      | true => exact ⟨_, .mutable hname hs⟩

lemma exists_prints_of_printable {ss : List Statement} (h : ∀ st ∈ ss, st.Printable) :
    ∃ s, PrintsStatements ss s := by
  induction ss with
  | nil => exact ⟨_, .nil⟩
  | cons st ss ih =>
    rw [List.forall_mem_cons] at h
    obtain ⟨s, hs⟩ := h.1.exists_prints
    obtain ⟨t, ht⟩ := ih h.2
    exact ⟨_, .cons hs ht⟩

lemma Statement.Printable.rank_le {st : Statement} (h : st.Printable) :
    ∀ e ∈ st.expression?, e.rank ≤ 1023 := by
  intro e he
  cases st with
  | expression =>
    obtain rfl := Option.some.inj he
    exact h.2
  | declaration => exact (h.2.2 e he).2

theorem parse_print (p : Program) (hp : p.Printable) :
    (∃ text, p.Prints text) ∧ ∀ text, p.Prints text → parse text = .ok p :=
  ⟨exists_prints_of_printable hp, fun _ h => parse_of_prints h fun st hst => (hp st hst).rank_le⟩

theorem parse_print_nested :
    ∃ x, Number.read? "042" = some x ∧
      parse "var mut a = (\x7bb: (c = (042 % null))\x7d);\n" =
        .ok ⟨[.declaration true "a" (some (.object [⟨"b", some (.assignment (.identifier "c")
          (.binary (.number x) .modulo .null))⟩]))]⟩ := by
  have hdigits : IsNumeral "042" := ⟨by decide, by simp; decide⟩
  have ha : IsName "a" := ⟨by decide, by simp; decide, by decide⟩
  have hb : IsName "b" := ⟨by decide, by simp; decide, by decide⟩
  have hc : IsName "c" := ⟨by decide, by simp; decide, by decide⟩
  obtain ⟨x, hx⟩ := hdigits.exists_read
  refine ⟨x, hx, (parse_print _ ?_).2 _ ?_⟩
  · simp [Program.Printable, Statement.Printable, Expr.Printable, PrintableProperties, Expr.rank,
      propertiesRank, ha, hb, hc]
    exact ⟨_, hdigits, hx⟩
  · exact .cons (.mutable ha (.object (.single hb
      (.assignment (.identifier hc) (.binary (.number hdigits hx) .null))))) .nil

end Varlet
