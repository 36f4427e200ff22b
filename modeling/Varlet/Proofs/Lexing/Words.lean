import Varlet.Proofs.Lexing.Spaced

namespace Varlet

open Text

inductive Lexes : List Char → List (Token.Kind × List Char) → Prop
  | nil : Lexes [] []
  | layout {c text words} : isLayout c → Lexes text words → Lexes (c :: text) words
  | word {c text kind word rest words} : Lexeme.next? c text = some ⟨kind, word, rest⟩ →
      Lexes rest words → Lexes (c :: text) ((kind, word) :: words)

lemma takeWhile_append_cons {P : Char → Bool} {d : Char} (hd : ¬ P d) (cs ds : List Char) :
    (cs ++ d :: ds).takeWhile P = cs.takeWhile P := by
  induction cs with
  | nil => simp [hd]
  | cons c cs ih =>
    by_cases hc : P c
    · simp [hc, ih]
    · simp [hc]

lemma dropWhile_append_cons {P : Char → Bool} {d : Char} (hd : ¬ P d) (cs ds : List Char) :
    (cs ++ d :: ds).dropWhile P = cs.dropWhile P ++ d :: ds := by
  induction cs with
  | nil => simp [hd]
  | cons c cs ih =>
    by_cases hc : P c
    · simp [hc, ih]
    · simp [hc]

namespace Lexeme

variable {c : Char} {cs : List Char} {l : Lexeme}

lemma next?_of_layout (hc : isLayout c) : next? c cs = none := by
  have hs : Single c := .inl hc
  have hp : Token.Kind.ofPunctuation? c = none := by
    rw [Option.eq_none_iff_forall_ne_some]
    intro kind hk
    exact not_layout_of_punctuation (ofPunctuation?_eq_some_iff.mp hk) hc
  simp [next?, hp, hs.not_digit, hs.not_letter]

lemma next?_append {d : Char} (hd : Single d) (h : next? c cs = some l) (ds : List Char) :
    next? c (cs ++ d :: ds) = some ⟨l.kind, l.taken, l.rest ++ d :: ds⟩ := by
  unfold next? at h ⊢
  split at h
  · cases h
    rfl
  · split at h
    · next hc =>
      cases h
      simp [hc, takeWhile_append_cons hd.not_digit, dropWhile_append_cons hd.not_digit]
    · next hn =>
      split at h
      · next hc =>
        cases h
        simp [hn, hc, takeWhile_append_cons hd.not_letter, dropWhile_append_cons hd.not_letter]
      · cases h

end Lexeme

namespace Lexes

variable {text more : List Char} {words others : List (Token.Kind × List Char)}

lemma gap {gap : List Char} (hg : ∀ c ∈ gap, isLayout c) (h : Lexes text words) :
    Lexes (gap ++ text) words := by
  induction gap with
  | nil => exact h
  | cons c gap ih =>
    rw [List.forall_mem_cons] at hg
    exact .layout hg.1 (ih hg.2)

lemma isWord {left word : List Char} {kind : Token.Kind} (hw : IsWord left kind word text)
    (h : Lexes text words) : Lexes (word ++ text) ((kind, word) :: words) := by
  obtain ⟨c, cs, heq, hnext⟩ := hw.exists_next?
  rw [heq]
  exact .word hnext h

lemma append {c : Char} (h : Lexes text words) (hc : isLayout c) (hm : Lexes more others) :
    Lexes (text ++ c :: more) (words ++ others) := by
  induction h with
  | nil => exact .layout hc hm
  | layout hd _ ih => exact .layout hd ih
  | word hnext _ ih => exact .word (Lexeme.next?_append (.inl hc) hnext more) ih

lemma of_gap {gap : List Char} (hg : ∀ c ∈ gap, isLayout c) (h : Lexes (gap ++ text) words) :
    Lexes text words := by
  induction gap with
  | nil => exact h
  | cons c gap ih =>
    rw [List.forall_mem_cons] at hg
    cases h with
    | layout _ h => exact ih hg.2 h
    | word hnext _ => simp [Lexeme.next?_of_layout hg.1] at hnext

lemma unique (h : Lexes text words) (h' : Lexes text others) : words = others := by
  induction h generalizing others with
  | nil =>
    cases h'
    rfl
  | layout hc _ ih =>
    cases h' with
    | layout _ h' => exact ih h'
    | word hnext _ => simp [Lexeme.next?_of_layout hc] at hnext
  | word hnext _ ih =>
    cases h' with
    | layout hc _ => simp [Lexeme.next?_of_layout hc] at hnext
    | word hnext' h' =>
      obtain ⟨rfl, rfl, rfl⟩ := Lexeme.mk.inj (Option.some.inj (hnext.symm.trans hnext'))
      rw [ih h']

lemma known (h : Lexes text words) : ∀ c ∈ text, Known c := by
  induction h with
  | nil => simp
  | layout hc _ ih =>
    rw [List.forall_mem_cons]
    exact ⟨.inl (.inl hc), ih⟩
  | word hnext _ ih =>
    have hparted (right : List Char) : Parted [] right := by simp [Parted]
    have hw := IsWord.of_next? hnext (hparted _)
    rw [← Lexeme.taken_append_rest hnext, List.forall_mem_append]
    exact ⟨hw.known, ih⟩

end Lexes

lemma Cut.lexes {left text last rest : List Char} {pieces : List Piece}
    {words : List (Token.Kind × List Char)} (h : Cut left text pieces last rest)
    (hr : Lexes rest words) :
    Lexes text ((pieces.map fun p => (p.kind, p.word)) ++ words) := by
  induction h with
  | gap hg => exact hr.gap hg
  | word hg hw _ ih =>
    rw [List.append_assoc]
    exact ((ih hr).isWord hw).gap hg

lemma Lexes.of_append_gap {text gap : List Char} {words : List (Token.Kind × List Char)}
    (hg : ∀ c ∈ gap, isLayout c) (h : Lexes (text ++ gap) words) : Lexes text words := by
  cases gap with
  | nil => rwa [List.append_nil] at h
  | cons c gap =>
    rw [List.forall_mem_cons] at hg
    obtain ⟨pieces, last, hcut⟩ :=
      Cut.exists_cut_of_known fun c hc => h.known c (List.mem_append_left _ hc)
    have htext := hcut.lexes .nil
    have hgap := Lexes.nil.gap hg.2
    rw [List.append_nil] at htext hgap
    have hwhole := htext.append hg.1 hgap
    rw [List.append_nil] at hwhole
    exact h.unique hwhole ▸ htext

def Spells (words : List (Token.Kind × List Char)) (tokens : List Token) : Prop :=
  ∃ ts final, tokens = ts ++ [final] ∧
    ts.map (fun t => (t.kind, t.text)) = words.map (fun w => (w.1, .ofList w.2)) ∧
    (∀ t ∈ ts, t.kind ≠ .eof) ∧ final.kind = .eof

section

variable {source : String} {words : List (Token.Kind × List Char)} {tokens : List Token}

lemma spells_of_cut {last : List Char} {pieces : List Piece}
    (h : Cut [] (Comment.blankAll source.toList) pieces last []) :
    ∃ tokens, tokenize source = .ok tokens ∧
      Spells (pieces.map fun p => (p.kind, p.word)) tokens := by
  refine ⟨_, tokenize_of_cut h, _, _, rfl, ?_, Piece.kind_tokens h.kind_ne_eof [], rfl⟩
  rw [Piece.map_tokens, List.map_map]
  rfl

lemma tokenize_of_lexes (h : Lexes (Comment.blankAll source.toList) words) :
    ∃ tokens, tokenize source = .ok tokens ∧ Spells words tokens := by
  obtain ⟨pieces, last, hcut⟩ := Cut.exists_cut_of_known h.known
  obtain rfl : words = pieces.map fun p => (p.kind, p.word) := by
    simpa using h.unique (hcut.lexes .nil)
  exact spells_of_cut hcut

lemma lexes_of_tokenize (h : tokenize source = .ok tokens) :
    ∃ words, Lexes (Comment.blankAll source.toList) words ∧ Spells words tokens := by
  obtain ⟨pieces, last, hcut⟩ := exists_cut_of_ok h
  obtain ⟨tokens', htokens, hspells⟩ := spells_of_cut hcut
  obtain rfl := Except.ok.inj (h.symm.trans htokens)
  exact ⟨_, by simpa using hcut.lexes .nil, hspells⟩

end

end Varlet
