import Mathlib
import Varlet.Token.Lexer

/-! How a text falls into gaps and words. It has at most one cut, and always has one up to the first
character that is in no class. -/

namespace Varlet

namespace Text

def punctuation : List (Char × Token.Kind) :=
  [('(', .parenLeft), (')', .parenRight), ('{', .braceLeft), ('}', .braceRight), ('+', .plus),
    ('-', .minus), ('*', .multiply), ('/', .divide), ('%', .modulo), ('=', .assign), (',', .comma),
    (':', .colon)]

lemma ofPunctuation?_eq_some_iff {c : Char} {kind : Token.Kind} :
    Token.Kind.ofPunctuation? c = some kind ↔ (c, kind) ∈ punctuation := by
  constructor
  · unfold Token.Kind.ofPunctuation?
    intro h
    split at h <;> cases h <;> decide
  · intro h
    simp only [punctuation, List.mem_cons, Prod.mk.injEq, List.not_mem_nil, or_false] at h
    rcases h with ⟨rfl, rfl⟩ | ⟨rfl, rfl⟩ | ⟨rfl, rfl⟩ | ⟨rfl, rfl⟩ | ⟨rfl, rfl⟩ | ⟨rfl, rfl⟩ |
      ⟨rfl, rfl⟩ | ⟨rfl, rfl⟩ | ⟨rfl, rfl⟩ | ⟨rfl, rfl⟩ | ⟨rfl, rfl⟩ | ⟨rfl, rfl⟩ <;> rfl

lemma mem_of_isLayout {c : Char} (h : isLayout c) : c ∈ [' ', '\t', '\r', '\n', ';'] := by
  simpa [isLayout, isSpace, or_assoc] using h

lemma letter_code {c : Char} (h : isLetter c) :
    65 ≤ c.toNat ∧ c.toNat ≤ 90 ∨ 97 ≤ c.toNat ∧ c.toNat ≤ 122 ∨ 181 ≤ c.toNat := by
  have hranges : ∀ r ∈ letterRanges,
      65 ≤ r.1 ∧ r.2 ≤ 90 ∨ 97 ≤ r.1 ∧ r.2 ≤ 122 ∨ 181 ≤ r.1 := by
    decide +kernel
  obtain ⟨r, hr, hc⟩ := List.any_eq_true.mp h
  have := hranges r hr
  simp only [Bool.and_eq_true, decide_eq_true_eq] at hc
  omega

lemma digit_code {c : Char} (h : isDigit c) : 48 ≤ c.toNat ∧ c.toNat ≤ 57 := by
  simpa [isDigit, Char.le_def, UInt32.le_iff_toNat_le] using h

lemma not_letter_of_digit {c : Char} (h : isDigit c) : ¬ isLetter c := by
  intro hl
  have := digit_code h
  have := letter_code hl
  omega

def Single (c : Char) : Prop := isLayout c ∨ ∃ kind, (c, kind) ∈ punctuation

lemma Single.code {c : Char} (h : Single c) :
    c.toNat < 48 ∨ 58 ≤ c.toNat ∧ c.toNat ≤ 61 ∨ c.toNat = 123 ∨ c.toNat = 125 := by
  rcases h with h | ⟨kind, h⟩
  · have hcode : ∀ d ∈ [' ', '\t', '\r', '\n', ';'], d.toNat < 48 ∨ d.toNat = 59 := by
      simp
    have := hcode c (mem_of_isLayout h)
    omega
  · have hcode : ∀ d ∈ punctuation, d.1.toNat < 48 ∨ 58 ≤ d.1.toNat ∧ d.1.toNat ≤ 61 ∨
        d.1.toNat = 123 ∨ d.1.toNat = 125 := by
      decide
    exact hcode _ h

lemma Single.not_digit {c : Char} (h : Single c) : ¬ isDigit c := by
  intro hd
  have := h.code
  have := digit_code hd
  omega

lemma Single.not_letter {c : Char} (h : Single c) : ¬ isLetter c := by
  intro hl
  have := h.code
  have := letter_code hl
  omega

lemma not_layout_of_punctuation {c : Char} {kind : Token.Kind} (h : (c, kind) ∈ punctuation) :
    ¬ isLayout c := by
  have hnone : ∀ d ∈ punctuation, ¬ isLayout d.1 := by decide
  exact hnone _ h

def Known (c : Char) : Prop := Single c ∨ isDigit c ∨ isLetter c

end Text

open Text

/-- The word consists of characters of the class `P` alone, and neither the text in front of it nor
the text behind it could give it one more. -/
structure MaximalRun (P : Char → Bool) (left word right : List Char) : Prop where
  ne_nil : word ≠ []
  all : ∀ c ∈ word, P c
  left_not : ∀ c ∈ left.getLast?, ¬ P c
  right_not : ∀ c ∈ right.head?, ¬ P c

inductive IsWord (left : List Char) : Token.Kind → List Char → List Char → Prop
  | punctuation {c kind right} : (c, kind) ∈ punctuation → IsWord left kind [c] right
  | number {word right} : MaximalRun isDigit left word right → IsWord left .number word right
  | keywordVar {right} : MaximalRun isLetter left ['v', 'a', 'r'] right →
      IsWord left .keywordVar ['v', 'a', 'r'] right
  | keywordMut {right} : MaximalRun isLetter left ['m', 'u', 't'] right →
      IsWord left .keywordMut ['m', 'u', 't'] right
  | keywordNull {right} : MaximalRun isLetter left ['n', 'u', 'l', 'l'] right →
      IsWord left .keywordNull ['n', 'u', 'l', 'l'] right
  | identifier {word right} : MaximalRun isLetter left word right →
      word ∉ [['v', 'a', 'r'], ['m', 'u', 't'], ['n', 'u', 'l', 'l']] →
      IsWord left .identifier word right

structure Piece where
  gap : List Char
  kind : Token.Kind
  word : List Char

/-- The text behind `left` consists of pieces, a last gap and a rest that is not looked at. -/
inductive Cut : List Char → List Char → List Piece → List Char → List Char → Prop
  | gap {left gap rest} : (∀ c ∈ gap, isLayout c) → Cut left (gap ++ rest) [] gap rest
  | word {left gap kind word right pieces last rest} :
      (∀ c ∈ gap, isLayout c) → IsWord (left ++ gap) kind word right →
      Cut (left ++ gap ++ word) right pieces last rest →
      Cut left (gap ++ word ++ right) (⟨gap, kind, word⟩ :: pieces) last rest

lemma takeWhile_append_stop {P : Char → Bool} {word right : List Char} (hw : ∀ c ∈ word, P c)
    (hr : ∀ c ∈ right.head?, ¬ P c) : (word ++ right).takeWhile P = word := by
  rw [List.takeWhile_append_of_pos hw]
  cases right <;> simp_all

lemma dropWhile_append_stop {P : Char → Bool} {word right : List Char} (hw : ∀ c ∈ word, P c)
    (hr : ∀ c ∈ right.head?, ¬ P c) : (word ++ right).dropWhile P = right := by
  rw [List.dropWhile_append_of_pos hw]
  cases right <;> simp_all

lemma head_dropWhile_not {P : Char → Bool} (cs : List Char) :
    ∀ c ∈ (cs.dropWhile P).head?, ¬ P c := by
  intro c hc
  have := List.head?_dropWhile_not P cs
  simp_all

namespace Lexeme

variable {c : Char} {cs : List Char}

lemma next?_of_punctuation {kind : Token.Kind} (h : (c, kind) ∈ punctuation) :
    next? c cs = some ⟨kind, [c], cs⟩ := by
  simp [next?, ofPunctuation?_eq_some_iff.mpr h]

lemma ofPunctuation?_eq_none (h : isDigit c ∨ isLetter c) :
    Token.Kind.ofPunctuation? c = none := by
  rw [Option.eq_none_iff_forall_ne_some]
  intro kind hk
  have hs : Single c := .inr ⟨kind, ofPunctuation?_eq_some_iff.mp hk⟩
  exact h.elim hs.not_digit hs.not_letter

lemma next?_of_digit (h : isDigit c) :
    next? c cs = some ⟨.number, c :: cs.takeWhile isDigit, cs.dropWhile isDigit⟩ := by
  simp [next?, ofPunctuation?_eq_none (.inl h), h]

lemma next?_of_letter (h : isLetter c) :
    next? c cs = some ⟨.ofWord (c :: cs.takeWhile isLetter), c :: cs.takeWhile isLetter,
      cs.dropWhile isLetter⟩ := by
  have hd : ¬ isDigit c := fun hd => not_letter_of_digit hd h
  simp [next?, ofPunctuation?_eq_none (.inr h), hd, h]

lemma not_known_of_next?_eq_none (h : next? c cs = none) (hc : ¬ isLayout c) : ¬ Known c := by
  rintro ((hl | ⟨kind, hp⟩) | hd | hl)
  · exact hc hl
  · simp [next?_of_punctuation hp] at h
  · simp [next?_of_digit hd] at h
  · simp [next?_of_letter hl] at h

lemma next?_eq_none (h : ¬ Known c) : next? c cs = none := by
  have hp : Token.Kind.ofPunctuation? c = none := by
    rw [Option.eq_none_iff_forall_ne_some]
    intro kind hk
    exact h (.inl (.inr ⟨kind, ofPunctuation?_eq_some_iff.mp hk⟩))
  have hd : ¬ isDigit c := fun hd => h (.inr (.inl hd))
  have hl : ¬ isLetter c := fun hl => h (.inr (.inr hl))
  simp [next?, hp, hd, hl]

end Lexeme

namespace MaximalRun

variable {P : Char → Bool} {left word right : List Char}

lemma exists_cons (h : MaximalRun P left word right) :
    ∃ c cs, word ++ right = c :: cs ∧ P c ∧ c :: cs.takeWhile P = word ∧
      cs.dropWhile P = right := by
  obtain ⟨c, tail, rfl⟩ := List.exists_cons_of_ne_nil h.ne_nil
  have htail : ∀ d ∈ tail, P d := fun d hd => h.all d (List.mem_cons_of_mem c hd)
  refine ⟨c, tail ++ right, rfl, h.all c List.mem_cons_self, ?_, ?_⟩
  · rw [takeWhile_append_stop htail h.right_not]
  · exact dropWhile_append_stop htail h.right_not

lemma of_takeWhile {c : Char} {cs : List Char} (hc : P c) (hl : ∀ d ∈ left.getLast?, ¬ P d) :
    MaximalRun P left (c :: cs.takeWhile P) (cs.dropWhile P) where
  ne_nil := by simp
  all := by
    rw [List.forall_mem_cons]
    exact ⟨hc, fun d hd => List.mem_takeWhile_imp hd⟩
  left_not := hl
  right_not := head_dropWhile_not cs

lemma last (h : MaximalRun P left word right) {c : Char} (hc : c ∈ (left ++ word).getLast?) :
    P c := by
  rw [List.getLast?_append_of_ne_nil _ h.ne_nil] at hc
  exact h.all c (List.mem_of_getLast? hc)

end MaximalRun

def Parted (left right : List Char) : Prop :=
  ∀ c ∈ left.getLast?, ∀ d ∈ right.head?,
    ¬ (isDigit c ∧ isDigit d) ∧ ¬ (isLetter c ∧ isLetter d)

lemma Parted.append_gap {left gap right : List Char} (h : Parted left (gap ++ right))
    (hg : ∀ c ∈ gap, isLayout c) : Parted (left ++ gap) right := by
  rcases List.eq_nil_or_concat gap with rfl | ⟨gap, c, rfl⟩
  · simpa using h
  · have hs : Single c := .inl (hg c (by simp))
    intro d hd e _
    obtain rfl : c = d := by simpa using hd
    exact ⟨fun h => hs.not_digit h.1, fun h => hs.not_letter h.1⟩

namespace IsWord

variable {left word right : List Char} {kind : Token.Kind}

lemma of_letters (h : MaximalRun isLetter left word right) :
    IsWord left (.ofWord word) word right := by
  unfold Token.Kind.ofWord
  split
  · subst word
    exact .keywordVar h
  · split
    · subst word
      exact .keywordMut h
    · split
      · subst word
        exact .keywordNull h
      · exact .identifier h (by simp_all)

lemma shape (h : IsWord left kind word right) :
    (∃ c, (c, kind) ∈ Text.punctuation ∧ word = [c]) ∨
    (kind = .number ∧ MaximalRun isDigit left word right) ∨
    (kind = .ofWord word ∧ MaximalRun isLetter left word right) := by
  cases h with
  | punctuation hp => exact .inl ⟨_, hp, rfl⟩
  | number hr => exact .inr (.inl ⟨rfl, hr⟩)
  | keywordVar hr => exact .inr (.inr ⟨rfl, hr⟩)
  | keywordMut hr => exact .inr (.inr ⟨rfl, hr⟩)
  | keywordNull hr => exact .inr (.inr ⟨rfl, hr⟩)
  | identifier hr hk => exact .inr (.inr ⟨by simp_all [Token.Kind.ofWord], hr⟩)

lemma exists_next? (h : IsWord left kind word right) :
    ∃ c cs, word ++ right = c :: cs ∧ Lexeme.next? c cs = some ⟨kind, word, right⟩ := by
  obtain ⟨c, hp, rfl⟩ | ⟨rfl, hr⟩ | ⟨rfl, hr⟩ := h.shape
  · exact ⟨c, right, rfl, Lexeme.next?_of_punctuation hp⟩
  · obtain ⟨c, cs, heq, hc, hword, hright⟩ := hr.exists_cons
    refine ⟨c, cs, heq, ?_⟩
    rw [Lexeme.next?_of_digit hc, hword, hright]
  · obtain ⟨c, cs, heq, hc, hword, hright⟩ := hr.exists_cons
    refine ⟨c, cs, heq, ?_⟩
    rw [Lexeme.next?_of_letter hc, hword, hright]

lemma of_next? {c : Char} {cs : List Char} {l : Lexeme} (h : Lexeme.next? c cs = some l)
    (hp : Parted left (c :: cs)) : IsWord left l.kind l.taken l.rest := by
  unfold Lexeme.next? at h
  split at h
  · cases h
    exact .punctuation (ofPunctuation?_eq_some_iff.mp ‹_›)
  · split at h
    · cases h
      have hc : isDigit c := ‹_›
      exact .number (.of_takeWhile hc fun d hd h => (hp d hd c rfl).1 ⟨h, hc⟩)
    · split at h
      · cases h
        have hc : isLetter c := ‹_›
        exact of_letters (.of_takeWhile hc fun d hd h => (hp d hd c rfl).2 ⟨h, hc⟩)
      · cases h

lemma known (h : IsWord left kind word right) : ∀ c ∈ word, Known c := by
  intro d hd
  obtain ⟨c, hp, rfl⟩ | ⟨-, hr⟩ | ⟨-, hr⟩ := h.shape
  · obtain rfl := List.mem_singleton.mp hd
    exact .inl (.inr ⟨kind, hp⟩)
  · exact .inr (.inl (hr.all d hd))
  · exact .inr (.inr (hr.all d hd))

lemma head_not_layout (h : IsWord left kind word right) :
    ∀ c ∈ (word ++ right).head?, ¬ isLayout c := by
  obtain ⟨c, hp, rfl⟩ | ⟨-, hr⟩ | ⟨-, hr⟩ := h.shape
  · rintro d ⟨rfl⟩
    exact not_layout_of_punctuation hp
  · obtain ⟨c, cs, heq, hc, -, -⟩ := hr.exists_cons
    rw [heq]
    rintro d ⟨rfl⟩ hd
    exact Single.not_digit (.inl hd) hc
  · obtain ⟨c, cs, heq, hc, -, -⟩ := hr.exists_cons
    rw [heq]
    rintro d ⟨rfl⟩ hd
    exact Single.not_letter (.inl hd) hc

lemma ne_nil (h : IsWord left kind word right) : word ≠ [] := by
  obtain ⟨c, cs, -, hnext⟩ := h.exists_next?
  exact Lexeme.taken_ne_nil hnext

lemma unique {left' word' right' : List Char} {kind' : Token.Kind}
    (h : IsWord left kind word right) (h' : IsWord left' kind' word' right')
    (heq : word ++ right = word' ++ right') : kind = kind' ∧ word = word' ∧ right = right' := by
  obtain ⟨c, cs, hcs, hnext⟩ := h.exists_next?
  obtain ⟨d, ds, hds, hnext'⟩ := h'.exists_next?
  obtain ⟨rfl, rfl⟩ : c = d ∧ cs = ds := by simpa [heq, hds, eq_comm] using hcs
  rw [hnext] at hnext'
  simpa using hnext'

lemma parted (h : IsWord left kind word right) : Parted (left ++ word) right := by
  intro c hc d hd
  obtain ⟨e, hp, rfl⟩ | ⟨-, hr⟩ | ⟨-, hr⟩ := h.shape
  · obtain rfl : e = c := by simpa using hc
    have hs : Single e := .inr ⟨kind, hp⟩
    exact ⟨fun h => hs.not_digit h.1, fun h => hs.not_letter h.1⟩
  · have hdigit := hr.last hc
    exact ⟨fun h => hr.right_not d hd h.2, fun h => not_letter_of_digit hdigit h.1⟩
  · have hletter := hr.last hc
    exact ⟨fun h => not_letter_of_digit h.1 hletter, fun h => hr.right_not d hd h.2⟩

end IsWord

lemma exists_gap (text : List Char) : ∃ gap right, text = gap ++ right ∧
    (∀ c ∈ gap, isLayout c) ∧ ∀ c ∈ right.head?, ¬ isLayout c :=
  ⟨text.takeWhile isLayout, text.dropWhile isLayout, List.takeWhile_append_dropWhile.symm,
    fun _ hc => List.mem_takeWhile_imp hc, head_dropWhile_not text⟩

lemma gap_unique {gap gap' right right' : List Char} (hg : ∀ c ∈ gap, isLayout c)
    (hg' : ∀ c ∈ gap', isLayout c) (hr : ∀ c ∈ right.head?, ¬ isLayout c)
    (hr' : ∀ c ∈ right'.head?, ¬ isLayout c) (heq : gap ++ right = gap' ++ right') :
    gap = gap' ∧ right = right' := by
  constructor
  · rw [← takeWhile_append_stop hg hr, heq, takeWhile_append_stop hg' hr']
  · rw [← dropWhile_append_stop hg hr, heq, dropWhile_append_stop hg' hr']

lemma not_layout_of_not_known {right : List Char} (h : ∀ c ∈ right.head?, ¬ Known c) :
    ∀ c ∈ right.head?, ¬ isLayout c :=
  fun c hc hl => h c hc (.inl (.inl hl))

namespace Cut

variable {left text last rest : List Char} {pieces : List Piece}

lemma exists_known (h : Cut left text pieces last rest) :
    ∃ front, text = front ++ rest ∧ ∀ c ∈ front, Known c := by
  induction h with
  | gap hg => exact ⟨_, rfl, fun c hc => .inl (.inl (hg c hc))⟩
  | @word left gap kind word right pieces last rest hg hw _ ih =>
    obtain ⟨front, rfl, hf⟩ := ih
    refine ⟨gap ++ word ++ front, by simp, ?_⟩
    simp only [List.forall_mem_append]
    exact ⟨⟨fun c hc => .inl (.inl (hg c hc)), hw.known⟩, hf⟩

lemma not_isWord {left word right : List Char} {kind : Token.Kind}
    (hr : ∀ c ∈ rest.head?, ¬ Known c) (hw : IsWord left kind word right) : rest ≠ word ++ right := by
  rintro rfl
  obtain ⟨c, word, rfl⟩ := List.exists_cons_of_ne_nil hw.ne_nil
  exact hr c rfl (hw.known c List.mem_cons_self)

lemma unique {left' last' rest' : List Char} {pieces' : List Piece}
    (h : Cut left text pieces last rest) (h' : Cut left' text pieces' last' rest')
    (hr : ∀ c ∈ rest.head?, ¬ Known c) (hr' : ∀ c ∈ rest'.head?, ¬ Known c) :
    pieces = pieces' ∧ last = last' ∧ rest = rest' := by
  induction h generalizing left' pieces' with
  | @gap left gap rest hg =>
    generalize heq : gap ++ rest = text at h'
    cases h' with
    | gap hg' =>
      have := gap_unique hg hg' (not_layout_of_not_known hr) (not_layout_of_not_known hr') heq
      exact ⟨rfl, this⟩
    | word hg' hw' _ =>
      rw [List.append_assoc] at heq
      have := gap_unique hg hg' (not_layout_of_not_known hr) hw'.head_not_layout heq
      exact absurd this.2 (not_isWord hr hw')
  | @word left gap kind word right pieces last rest hg hw _ ih =>
    generalize heq : gap ++ word ++ right = text at h'
    rw [List.append_assoc] at heq
    cases h' with
    | gap hg' =>
      have := gap_unique hg hg' hw.head_not_layout (not_layout_of_not_known hr') heq
      exact absurd this.2.symm (not_isWord hr' hw)
    | word hg' hw' hc' =>
      rw [List.append_assoc] at heq
      obtain ⟨rfl, hright⟩ := gap_unique hg hg' hw.head_not_layout hw'.head_not_layout heq
      obtain ⟨rfl, rfl, rfl⟩ := hw.unique hw' hright
      obtain ⟨rfl, hlast⟩ := ih hc' hr
      exact ⟨rfl, hlast⟩

lemma exists_cut : ∀ (text left : List Char), Parted left text →
    ∃ pieces last rest, Cut left text pieces last rest ∧ ∀ c ∈ rest.head?, ¬ Known c := by
  intro text
  -- That no run goes on from `left` is what makes the next word maximal, so it is carried along.
  induction hn : text.length using Nat.strong_induction_on generalizing text with
  | h n ih =>
    intro left hp
    obtain ⟨gap, right, rfl, hg, hfirst⟩ := exists_gap text
    cases right with
    | nil => exact ⟨[], gap, [], .gap hg, by simp⟩
    | cons c cs =>
      cases hnext : Lexeme.next? c cs with
      | none =>
        refine ⟨[], gap, c :: cs, .gap hg, ?_⟩
        rintro d ⟨rfl⟩
        exact Lexeme.not_known_of_next?_eq_none hnext (hfirst c rfl)
      | some l =>
        have hw := IsWord.of_next? hnext (hp.append_gap hg)
        have happ := Lexeme.taken_append_rest hnext
        have hlt : l.rest.length < n := by
          have hpos := List.length_pos_iff.mpr hw.ne_nil
          have := congrArg List.length happ
          simp only [List.length_append] at this hn
          omega
        obtain ⟨pieces, last, rest, hc, hr⟩ := ih _ hlt l.rest rfl _ hw.parted
        refine ⟨⟨gap, l.kind, l.taken⟩ :: pieces, last, rest, ?_, hr⟩
        rw [← happ, ← List.append_assoc]
        exact .word hg hw hc

lemma exists_cut_of_known (h : ∀ c ∈ text, Known c) : ∃ pieces last, Cut [] text pieces last [] := by
  obtain ⟨pieces, last, rest, hcut, hrest⟩ := exists_cut text [] (by simp [Parted])
  obtain ⟨front, heq, -⟩ := hcut.exists_known
  cases rest with
  | nil => exact ⟨pieces, last, hcut⟩
  | cons c rest => exact absurd (h c (by simp [heq])) (hrest c rfl)

end Cut

end Varlet
