import Varlet.Proofs.Lexing.Insertion
import Varlet.Proofs.Lexing.Places

namespace Varlet

open Text Position

lemma IsWord.congr_right {left word right right' : List Char} {kind : Token.Kind}
    (h : IsWord left kind word right)
    (hr : ∀ c, right'.head? = some c → ¬ isLayout c → right.head? = some c) :
    IsWord left kind word right' := by
  have hrun {P : Char → Bool} (hP : ∀ c, isLayout c → ¬ P c) (hrun : MaximalRun P left word right) :
      MaximalRun P left word right' := by
    refine ⟨hrun.ne_nil, hrun.all, hrun.left_not, fun c hc => ?_⟩
    by_cases hl : isLayout c
    · exact hP c hl
    · exact hrun.right_not c (hr c hc hl)
  obtain ⟨c, hp, rfl⟩ | ⟨rfl, hd⟩ | ⟨rfl, hl⟩ := h.shape
  · exact .punctuation hp
  · exact .number (hrun (fun c hc => Single.not_digit (.inl hc)) hd)
  · exact .of_letters (hrun (fun c hc => Single.not_letter (.inl hc)) hl)

lemma Cut.insert {left text last rest gap : List Char} {pieces : List Piece}
    (h : Cut left text pieces last rest) (hg : ∀ c ∈ gap, isLayout c) :
    Cut left (pieces.flatMap Piece.chars ++ last ++ gap ++ rest) pieces (last ++ gap) rest := by
  induction h with
  | gap hlast =>
    rw [List.flatMap_nil, List.nil_append]
    exact .gap (by rw [List.forall_mem_append]; exact ⟨hlast, hg⟩)
  | @word left before kind word right pieces last rest hbefore hw hcut ih =>
    have hw' : IsWord (left ++ before) kind word
        (pieces.flatMap Piece.chars ++ last ++ gap ++ rest) := by
      apply hw.congr_right
      intro c hc hl
      rw [hcut.text_eq]
      exact Comment.head?_of_insert hg hl hc
    simpa [Piece.chars] using Cut.word hbefore hw' ih

structure Border (left text front back : List Char) : Prop where
  cut : ∃ pieces last, Cut left text pieces last back ∧
    front = pieces.flatMap Piece.chars ++ last
  lexes : ∃ words, Lexes back words
  seam : Seam front back

namespace Border

variable {left text front back gap word right : List Char} {kind : Token.Kind}

lemma text_eq (h : Border left text front back) : text = front ++ back := by
  obtain ⟨pieces, last, hcut, rfl⟩ := h.cut
  exact hcut.text_eq

lemma before_word {words : List (Token.Kind × List Char)} (hg : ∀ c ∈ gap, isLayout c)
    (hw : IsWord (left ++ gap) kind word right) (hr : Lexes right words) :
    Border left (gap ++ word ++ right) gap (word ++ right) where
  cut := ⟨[], gap, List.append_assoc gap word right ▸ .gap hg, rfl⟩
  lexes := ⟨_, hr.isWord hw⟩
  seam := by
    obtain ⟨c, cs, rfl⟩ := List.exists_cons_of_ne_nil hw.ne_nil
    exact .inr (.inr ⟨c, rfl, hw.not_layout c (by simp)⟩)

lemma behind_word {words : List (Token.Kind × List Char)} (hg : ∀ c ∈ gap, isLayout c)
    (hw : IsWord (left ++ gap) kind word right) (hr : Lexes right words) :
    Border left (gap ++ word ++ right) (gap ++ word) right where
  cut := ⟨[⟨gap, kind, word⟩], [], .word hg hw (@Cut.gap _ [] right (by simp)), by
    simp [Piece.chars]⟩
  lexes := ⟨_, hr⟩
  seam := by
    obtain ⟨cs, c, hword⟩ := List.eq_nil_or_concat word |>.resolve_left hw.ne_nil
    exact .inr (.inl ⟨c, by simp [hword], hw.not_layout c (by simp [hword])⟩)

lemma later (hg : ∀ c ∈ gap, isLayout c) (hw : IsWord (left ++ gap) kind word right)
    (h : Border (left ++ gap ++ word) right front back) :
    Border left (gap ++ word ++ right) (gap ++ word ++ front) back where
  cut := by
    obtain ⟨pieces, last, hcut, rfl⟩ := h.cut
    exact ⟨_, last, .word hg hw hcut, by simp [Piece.chars]⟩
  lexes := h.lexes
  seam := by
    rcases h.seam with hnil | ⟨c, hc, hl⟩ | hhead
    · exact .inl hnil
    · exact .inr (.inl ⟨c, by simp_all [List.getLast?_append], hl⟩)
    · exact .inr (.inr hhead)

end Border

def Piece.spans (n : ℕ) (last : List Char) : List Piece → List (ℕ × ℕ)
  | [] => [(n + last.length, n + last.length)]
  | p :: ps => (n + p.gap.length, n + p.chars.length) :: spans (n + p.chars.length) last ps

/-- The text is split right in front of its token at index `i` or right behind it. -/
def SplitsAt (left right : String) (i : ℕ) : Prop :=
  ∃ pieces last span, Cut [] (Comment.strip (left ++ right)).toList pieces last [] ∧
    (Piece.spans 0 last pieces)[i]? = some span ∧
    (left.length = span.1 ∨ left.length = span.2)

lemma Cut.exists_border {left text last : List Char} {pieces : List Piece}
    (h : Cut left text pieces last []) {n i k : ℕ} {span : ℕ × ℕ}
    (hi : (Piece.spans n last pieces)[i]? = some span) (hk : k = span.1 ∨ k = span.2) :
    ∃ front back, Border left text front back ∧ n + front.length = k := by
  generalize hr : [] = rest at h
  induction h generalizing n i with
  | @gap left gap rest hg =>
    subst hr
    obtain ⟨rfl, rfl⟩ : i = 0 ∧ (n + gap.length, n + gap.length) = span := by
      simpa [Piece.spans, List.getElem?_singleton] using hi
    refine ⟨gap, [], ⟨⟨[], gap, .gap hg, rfl⟩, ⟨[], .nil⟩, .inl rfl⟩, ?_⟩
    exact (hk.elim id id).symm
  | @word left gap kind word right pieces last rest hg hw hcut ih =>
    subst hr
    cases i with
    | zero =>
      obtain rfl := Option.some.inj hi
      rcases hk with rfl | rfl
      · exact ⟨_, _, .before_word hg hw (hcut.lexes .nil), rfl⟩
      · exact ⟨_, _, .behind_word hg hw (hcut.lexes .nil), rfl⟩
    | succ i =>
      obtain ⟨front, back, hborder, hlength⟩ := ih hi rfl
      refine ⟨_, _, .later hg hw hborder, ?_⟩
      rw [← hlength, Piece.chars, List.length_append, Nat.add_assoc]

lemma Border.lexes_insert {left text front back gap : List Char} (h : Border left text front back)
    (hg : ∀ c ∈ gap, isLayout c) :
    ∃ words, Lexes text words ∧ Lexes (front ++ gap ++ back) words := by
  obtain ⟨words, hback⟩ := h.lexes
  obtain ⟨pieces, last, hcut, rfl⟩ := h.cut
  exact ⟨_, hcut.lexes hback, (hcut.insert hg).lexes hback⟩

section

variable {source : String} {tokens : List Token}

lemma map_tokens_of_lexes {words : List (Token.Kind × List Char)} (h : tokenize source = .ok tokens)
    (hw : Lexes (Comment.blankAll source.toList) words) :
    tokens.map (fun t => (t.kind, t.text)) =
      words.map (fun w => (w.1, .ofList w.2)) ++ [(.eof, "")] := by
  obtain ⟨pieces, last, hcut, rfl⟩ := cut_of_tokenize h
  obtain rfl : words = pieces.map fun p => (p.kind, p.word) := by
    simpa using hw.unique (hcut.lexes .nil)
  rw [List.map_append, Piece.map_tokens, List.map_map]
  rfl

end

def Position.Stands (p : Position) (text : List Char) (n : ℕ) : Prop :=
  ∃ front back, text = front ++ back ∧ front.length = n ∧ p = .counted front

lemma Piece.forall₂_spans (left last : List Char) (pieces : List Piece) :
    let text := left ++ pieces.flatMap chars ++ last
    List.Forall₂ (fun t span => t.start.Stands text span.1 ∧ t.stop.Stands text span.2)
      (tokens left pieces ++ [.endAt (.counted text)]) (spans left.length last pieces) := by
  induction pieces generalizing left with
  | nil =>
    have hend : (counted (left ++ last)).Stands (left ++ last) (left.length + last.length) :=
      ⟨left ++ last, [], by simp, by simp, rfl⟩
    simpa [tokens, spans, Token.endAt] using hend
  | cons p ps ih =>
    have hrest := ih (left ++ p.chars)
    rw [List.flatMap_cons, ← List.append_assoc]
    rw [List.length_append] at hrest
    refine .cons ⟨⟨left ++ p.gap, p.word ++ ps.flatMap chars ++ last, ?_, ?_, rfl⟩,
      ⟨left ++ p.chars, ps.flatMap chars ++ last, ?_, ?_, rfl⟩⟩ hrest
    · simp [chars]
    · simp
    · simp
    · simp

lemma lexes_insert_layout {left right gap : String} {i : ℕ} (hs : SplitsAt left right i)
    (hg : ∀ c ∈ gap.toList, isLayout c) :
    ∃ words, Lexes (Comment.blankAll (left ++ right).toList) words ∧
      Lexes (Comment.blankAll (left ++ gap ++ right).toList) words := by
  obtain ⟨pieces, last, span, hcut, hi, hk⟩ := hs
  rw [Comment.strip, String.toList_ofList] at hcut
  obtain ⟨front, back, hborder, hlength⟩ := hcut.exists_border hi hk
  have hblanked := Comment.blanked_blankAll (left ++ right).toList
  rw [hborder.text_eq] at hblanked
  obtain ⟨left', right', heq, hleft, -⟩ := hblanked.exists_append
  rw [String.toList_append] at heq
  rw [Nat.zero_add, ← hleft.length_eq, ← String.length_toList] at hlength
  obtain rfl := List.append_inj_left heq hlength.symm
  have htext := hborder.text_eq
  rw [String.toList_append] at htext
  obtain ⟨gap', hgap', hinsert⟩ := Comment.blankAll_insert hg htext hleft.length_eq hborder.seam
  obtain ⟨words, htext, hnew⟩ := hborder.lexes_insert hgap'
  refine ⟨words, htext, ?_⟩
  rw [String.toList_append, String.toList_append, hinsert]
  exact hnew

lemma Position.Stands.behind_eq_iff {p : Position} {text left right : List Char} {n : ℕ}
    (h : p.Stands text n) (hs : Comment.Blanked (left ++ right) text)
    (hb : (left ++ right).length < 2 ^ 31 - 1) : behind left = p ↔ left.length = n := by
  obtain ⟨front, back, rfl, rfl, rfl⟩ := h
  obtain ⟨front', back', heq, hfront, -⟩ := hs.exists_append
  rw [hfront.counted_eq_behind (heq ▸ hb), ← hfront.length_eq]
  refine ⟨fun hplace => ?_, fun hlength => ?_⟩
  · rw [eq_of_behind_eq heq hplace]
  · rw [List.append_inj_left heq hlength]

lemma exists_getElem?_of_forall₂ {α β : Type} {R : α → β → Prop} {xs : List α} {ys : List β}
    {i : ℕ} {x : α} (h : List.Forall₂ R xs ys) (hx : xs[i]? = some x) :
    ∃ y, ys[i]? = some y ∧ R x y := by
  obtain ⟨hi, rfl⟩ := List.getElem?_eq_some_iff.mp hx
  have hi' : i < ys.length := h.length_eq ▸ hi
  exact ⟨ys[i], List.getElem?_eq_getElem hi', h.get hi hi'⟩

/-- Where all places can be counted, a text is split there if the place is one of the token's. -/
lemma splitsAt_iff {left right : String} {tokens : List Token} {i : ℕ}
    (h : tokenize (left ++ right) = .ok tokens) (hb : (left ++ right).length < 2 ^ 31 - 1) :
    SplitsAt left right i ↔ ∃ t, tokens[i]? = some t ∧
      (.behind left.toList = t.start ∨ .behind left.toList = t.stop) := by
  obtain ⟨pieces, last, hcut, rfl⟩ := cut_of_tokenize h
  have hblanked := Comment.blanked_blankAll (left ++ right).toList
  have htext := hcut.text_eq
  rw [List.append_nil] at htext
  have hspans := Piece.forall₂_spans [] last pieces
  simp only [List.nil_append, ← htext, ← hblanked.counted_eq] at hspans
  rw [← String.length_toList] at hb
  simp only [String.toList_append] at hblanked hspans hb ⊢
  constructor
  · rintro ⟨pieces', last', span, hcut', hi, hk⟩
    rw [Comment.strip, String.toList_ofList] at hcut'
    obtain ⟨rfl, rfl, -⟩ := hcut'.unique hcut (by simp) (by simp)
    obtain ⟨t, ht, hstart, hstop⟩ := exists_getElem?_of_forall₂ hspans.flip hi
    exact ⟨t, ht,
      hk.imp (hstart.behind_eq_iff hblanked hb).mpr (hstop.behind_eq_iff hblanked hb).mpr⟩
  · rintro ⟨t, ht, hp⟩
    obtain ⟨span, hi, hstart, hstop⟩ := exists_getElem?_of_forall₂ hspans ht
    refine ⟨pieces, last, span, ?_, hi,
      hp.imp (hstart.behind_eq_iff hblanked hb).mp (hstop.behind_eq_iff hblanked hb).mp⟩
    rwa [Comment.strip, String.toList_ofList]

end Varlet
