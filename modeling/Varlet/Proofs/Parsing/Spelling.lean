import Varlet.Proofs.Lexing.Words
import Varlet.Proofs.Parsing.Acceptance

namespace Varlet

def Token.word (t : Token) : Token.Kind × String := (t.kind, t.text)

lemma Token.word_eq_iff {t u : Token} : t.word = u.word ↔ t.kind = u.kind ∧ t.text = u.text :=
  Prod.mk.injEq .. ▸ Iff.rfl

namespace Grammar

lemma Derives.congr {X : Symbol} {ts us : List Token} {e : Expr} {n : ℕ} (h : Derives X ts e n)
    (hu : us.map Token.word = ts.map Token.word) : Derives X us e n := by
  induction h generalizing us with
    try simp only [List.map_append, List.map_cons, List.map_nil, List.map_eq_append_iff,
      List.map_eq_cons_iff, List.map_eq_nil_iff, Token.word_eq_iff] at hu
  | expression _ ih => exact .expression (ih hu)
  | assignment _ hs _ iht ihv =>
    obtain ⟨us, _, rfl, hu, sign, vs, rfl, hsign, hv⟩ := hu
    exact .assignment (iht hu) (hsign.1.trans hs) (ihv hv)
  | object ho _ ih =>
    obtain ⟨opening, us, rfl, hopening, hu⟩ := hu
    exact .object (hopening.1.trans ho) (ih hu)
  | level _ ih => exact .level (ih hu)
  | closing hc =>
    obtain ⟨closing, us, rfl, hclosing, rfl⟩ := hu
    exact .closing (hclosing.1.trans hc)
  | last hk hc _ hb ih =>
    obtain ⟨key, _, rfl, hkey, colon, _, rfl, hcolon, us, _, rfl, hu, closing, _, rfl, hclosing,
      rfl⟩ := hu
    rw [← hkey.2]
    exact .last (hkey.1.trans hk) (hcolon.1.trans hc) (ih hu) (hclosing.1.trans hb)
  | member hk hc _ hm _ ih ihs =>
    obtain ⟨key, _, rfl, hkey, colon, _, rfl, hcolon, us, _, rfl, hu, comma, vs, rfl, hcomma,
      hv⟩ := hu
    rw [← hkey.2]
    exact .member (hkey.1.trans hk) (hcolon.1.trans hc) (ih hu) (hcomma.1.trans hm) (ihs hv)
  | summand _ ih => exact .summand (ih hu)
  | add _ ha _ ih ih' =>
    obtain ⟨us, _, rfl, hu, sign, vs, rfl, hsign, hv⟩ := hu
    exact .add (ih hu) (hsign.1 ▸ ha) (ih' hv)
  | factor _ ih => exact .factor (ih hu)
  | multiply _ hm _ ih ih' =>
    obtain ⟨us, _, rfl, hu, sign, vs, rfl, hsign, hv⟩ := hu
    exact .multiply (ih hu) (hsign.1 ▸ hm) (ih' hv)
  | identifier hk =>
    obtain ⟨name, _, rfl, hname, rfl⟩ := hu
    rw [← hname.2]
    exact .identifier (hname.1.trans hk)
  | number hk hx =>
    obtain ⟨digits, _, rfl, hdigits, rfl⟩ := hu
    exact .number (hdigits.1.trans hk) (hdigits.2 ▸ hx)
  | null hk =>
    obtain ⟨word, _, rfl, hword, rfl⟩ := hu
    exact .null (hword.1.trans hk)
  | parentheses ho _ hc ih =>
    obtain ⟨opening, _, rfl, hopening, us, _, rfl, hu, closing, _, rfl, hclosing, rfl⟩ := hu
    exact .parentheses (hopening.1.trans ho) (ih hu) (hclosing.1.trans hc)

lemma DerivesStatement.congr {ts us : List Token} {s : Statement} {n : ℕ}
    (h : DerivesStatement ts s n) (hu : us.map Token.word = ts.map Token.word) :
    DerivesStatement us s n := by
  cases h with
    try simp only [List.map_cons, List.map_nil, List.map_eq_cons_iff, List.map_eq_nil_iff,
      Token.word_eq_iff] at hu
  | expression h => exact .expression (h.congr hu)
  | constant hk hn hs h =>
    obtain ⟨keyword, _, rfl, hkeyword, name, _, rfl, hname, sign, us, rfl, hsign, hu⟩ := hu
    rw [← hname.2]
    exact .constant (hkeyword.1 ▸ hk) (hname.1.trans hn) (hsign.1.trans hs) (h.congr hu)
  | mutable hk hm hn hs h =>
    obtain ⟨keyword, _, rfl, hkeyword, second, _, rfl, hsecond, name, _, rfl, hname, sign, us, rfl,
      hsign, hu⟩ := hu
    rw [← hname.2]
    exact .mutable (hkeyword.1 ▸ hk) (hsecond.1.trans hm) (hname.1.trans hn) (hsign.1.trans hs)
      (h.congr hu)
  | uninitialized hk hm hn =>
    obtain ⟨keyword, _, rfl, hkeyword, second, _, rfl, hsecond, name, _, rfl, hname, rfl⟩ := hu
    rw [← hname.2]
    exact .uninitialized (hkeyword.1 ▸ hk) (hsecond.1.trans hm) (hname.1.trans hn)

lemma DerivesProgram.congr {ts us : List Token} {body : List Statement} {n : ℕ}
    (h : DerivesProgram ts body n) (hu : us.map Token.word = ts.map Token.word) :
    DerivesProgram us body n := by
  induction h generalizing us with
  | nil =>
    obtain rfl := List.map_eq_nil_iff.mp hu
    exact .nil
  | cons hs _ ih =>
    rw [List.map_append, List.map_eq_append_iff] at hu
    obtain ⟨us, vs, rfl, hu, hv⟩ := hu
    exact .cons (hs.congr hu) (ih hv)

lemma DerivesProgram.append {ts us : List Token} {body more : List Statement} {n m : ℕ}
    (h : DerivesProgram ts body n) (h' : DerivesProgram us more m) :
    DerivesProgram (ts ++ us) (body ++ more) (max n m) := by
  induction h with
  | nil => simpa using h'
  | cons hs _ ih =>
    rw [List.append_assoc, max_assoc]
    exact .cons hs ih

lemma Symbol.operator_firstKinds (X : Symbol) : ∀ k ∈ X.firstKinds, k.operator? = none := by
  cases X <;> simp [firstKinds, Token.Kind.operator?]

def Apart (t u : Token) : Prop := t.kind.operator? = none ∨ u.kind.operator? = none

lemma isChain_cons_of_none {t : Token} {ts : List Token} (ht : t.kind.operator? = none)
    (h : ts.IsChain Apart) : (t :: ts).IsChain Apart :=
  List.isChain_cons.mpr ⟨fun _ _ => .inl ht, h⟩

lemma Derives.isChain_cons {X : Symbol} {t : Token} {ts us : List Token} {e : Expr} {n : ℕ}
    (h : Derives X ts e n) (hu : (ts ++ us).IsChain Apart) : (t :: (ts ++ us)).IsChain Apart := by
  obtain ⟨u, ts, rfl, hfirst⟩ := h.exists_first
  refine List.isChain_cons.mpr ⟨?_, hu⟩
  rintro _ ⟨rfl⟩
  exact .inr (X.operator_firstKinds _ hfirst)

lemma Derives.isChain_append {X : Symbol} {ts us : List Token} {e : Expr} {n : ℕ}
    (h : Derives X ts e n) (hu : us.IsChain Apart) : (ts ++ us).IsChain Apart := by
  have hplain {k : Token.Kind} {t : Token} {ts : List Token} (ht : t.kind = k)
      (hk : k.operator? = none) (h : ts.IsChain Apart) : (t :: ts).IsChain Apart :=
    isChain_cons_of_none (ht ▸ hk) h
  induction h generalizing us with
    try simp only [List.append_assoc, List.cons_append, List.nil_append]
  | expression _ ih => exact ih hu
  | assignment _ hs _ iht ihv => exact iht (hplain hs rfl (ihv hu))
  | object ho _ ih => exact hplain ho rfl (ih hu)
  | level _ ih => exact ih hu
  | closing hc => exact hplain hc rfl hu
  | last hk hc _ hb ih => exact hplain hk rfl (hplain hc rfl (ih (hplain hb rfl hu)))
  | member hk hc _ hm _ ih ihs =>
    exact hplain hk rfl (hplain hc rfl (ih (hplain hm rfl (ihs hu))))
  | summand _ ih => exact ih hu
  | add _ _ h ih ih' => exact ih (h.isChain_cons (ih' hu))
  | factor _ ih => exact ih hu
  | multiply _ _ h ih ih' => exact ih (h.isChain_cons (ih' hu))
  | identifier hk => exact hplain hk rfl hu
  | number hk _ => exact hplain hk rfl hu
  | null hk => exact hplain hk rfl hu
  | parentheses ho _ hc ih => exact hplain ho rfl (ih (hplain hc rfl hu))

lemma DerivesStatement.isChain_append {ts us : List Token} {s : Statement} {n : ℕ}
    (h : DerivesStatement ts s n) (hu : us.IsChain Apart) : (ts ++ us).IsChain Apart := by
  have hkeyword {t : Token} (ht : t.kind = .keywordVar ∨ t.kind = .keywordMut) :
      t.kind.operator? = none := by
    rcases ht with ht | ht <;> rw [ht] <;> rfl
  have hplain {k : Token.Kind} {t : Token} (ht : t.kind = k) (hk : k.operator? = none) :
      t.kind.operator? = none := ht ▸ hk
  cases h with
  | expression h => exact h.isChain_append hu
  | constant hk hn hs h =>
    exact isChain_cons_of_none (hkeyword hk) (isChain_cons_of_none (hplain hn rfl)
      (isChain_cons_of_none (hplain hs rfl) (h.isChain_append hu)))
  | mutable hk hm hn hs h =>
    exact isChain_cons_of_none (hkeyword hk) (isChain_cons_of_none (hplain hm rfl)
      (isChain_cons_of_none (hplain hn rfl) (isChain_cons_of_none (hplain hs rfl)
        (h.isChain_append hu))))
  | uninitialized hk hm hn =>
    exact isChain_cons_of_none (hkeyword hk) (isChain_cons_of_none (hplain hm rfl)
      (isChain_cons_of_none (hplain hn rfl) hu))

lemma DerivesProgram.isChain {ts : List Token} {body : List Statement} {n : ℕ}
    (h : DerivesProgram ts body n) : ts.IsChain Apart := by
  induction h with
  | nil => exact .nil
  | cons hs _ ih => exact hs.isChain_append ih

end Grammar

open Grammar Text

def Token.ofWord (w : Token.Kind × List Char) : Token := ⟨w.1, .ofList w.2, .start, .start⟩

lemma Token.kind_ofWord (w : Token.Kind × List Char) : (Token.ofWord w).kind = w.1 := rfl

lemma Token.text_ofWord (kind : Token.Kind) (text : String) :
    (Token.ofWord (kind, text.toList)).text = text := String.ofList_toList

def bare (words : List (Token.Kind × List Char)) : List Token := words.map Token.ofWord

@[simp] lemma bare_nil : bare [] = [] := rfl

@[simp] lemma bare_cons (w : Token.Kind × List Char) (words : List (Token.Kind × List Char)) :
    bare (w :: words) = .ofWord w :: bare words := rfl

@[simp] lemma bare_append (words others : List (Token.Kind × List Char)) :
    bare (words ++ others) = bare words ++ bare others := List.map_append

lemma Lexes.exists_cons {c : Char} {text : List Char} {kind : Token.Kind}
    {words : List (Token.Kind × List Char)} (h : Lexes (c :: text) words)
    (hc : (c, kind) ∈ punctuation) : ∃ others, words = (kind, [c]) :: others := by
  cases h with
  | layout hl _ => exact absurd hl (not_layout_of_punctuation hc)
  | word hnext _ =>
    rw [Lexeme.next?_of_punctuation hc] at hnext
    cases hnext
    exact ⟨_, rfl⟩

lemma Lexes.free {text : List Char} {words : List (Token.Kind × List Char)} (h : Lexes text words)
    (hw : (bare words).IsChain Apart) : Comment.Free text := by
  have hslash : Single '/' := .inr ⟨.divide, by decide⟩
  induction h with
  | nil => exact .nil
  | layout hc _ ih =>
    refine List.isChain_cons.mpr ⟨?_, ih hw⟩
    rintro d - rfl
    exact absurd hc (by decide)
  | @word c text kind word rest words hnext hrest ih =>
    obtain ⟨hfirst, hrest'⟩ := List.isChain_cons.mp hw
    have hparted : Parted [] (c :: text) := by simp [Parted]
    rw [← Lexeme.taken_append_rest hnext]
    obtain ⟨c, hp, hword⟩ | ⟨-, hrun⟩ | ⟨-, hrun⟩ := (IsWord.of_next? hnext hparted).shape
    · subst hword
      refine List.isChain_cons.mpr ⟨?_, ih hrest'⟩
      rintro d hd rfl
      obtain ⟨rest, rfl⟩ : ∃ ds, rest = d :: ds := List.head?_eq_some_iff.mp hd
      obtain rfl : kind = .divide := by simpa [punctuation] using hp
      have hnone {k : Token.Kind} (hk : (d, k) ∈ punctuation) : k.operator? = none := by
        obtain ⟨others, rfl⟩ := hrest.exists_cons hk
        rcases hfirst _ rfl with h | h
        · cases h
        · exact h
      constructor
      · rintro rfl
        cases hnone (k := .divide) (by decide)
      · rintro rfl
        cases hnone (k := .multiply) (by decide)
    · apply (ih hrest').append
      rintro d hd rfl
      exact hslash.not_digit (hrun.all _ hd)
    · apply (ih hrest').append
      rintro d hd rfl
      exact hslash.not_letter (hrun.all _ hd)

section

variable {source : String} {words : List (Token.Kind × List Char)} {p : Program} {n : ℕ}

lemma Spells.derives_iff {tokens : List Token} {body : List Statement} (h : Spells words tokens) :
    DerivesProgram (tokens.takeWhile fun t => t.kind ≠ .eof) body n ↔
      DerivesProgram (bare words) body n := by
  obtain ⟨ts, final, rfl, hmap, hts, hfinal⟩ := h
  have htake : (ts ++ [final]).takeWhile (fun t => t.kind ≠ .eof) = ts :=
    TokenStream.pending_ofTokens hts hfinal
  have hwords : (bare words).map Token.word = ts.map Token.word := by
    rw [bare, List.map_map]
    exact hmap.symm
  rw [htake]
  exact ⟨fun h => h.congr hwords, fun h => h.congr hwords.symm⟩

lemma parse_of_lexes (h : Lexes (Comment.blankAll source.toList) words) (hn : n ≤ maxNesting)
    (hd : DerivesProgram (bare words) p.body n) : parse source = .ok p := by
  obtain ⟨tokens, htokens, hspells⟩ := tokenize_of_lexes h
  exact parse_eq_ok_iff.mpr
    ⟨tokens, htokens, Program.ofTokens_of_derives hn (hspells.derives_iff.mpr hd)⟩

lemma lexes_of_parse (h : parse source = .ok p) :
    ∃ words, Lexes (Comment.blankAll source.toList) words ∧
      ∃ n ≤ maxNesting, DerivesProgram (bare words) p.body n := by
  obtain ⟨tokens, htokens, hp⟩ := parse_eq_ok_iff.mp h
  obtain ⟨words, hlexes, hspells⟩ := lexes_of_tokenize htokens
  obtain ⟨n, hn, hd⟩ := Program.derives_of_ofTokens hp
  exact ⟨words, hlexes, n, hn, hspells.derives_iff.mp hd⟩

end

end Varlet
