import Varlet.Proofs.Lexing.Blanking

namespace Varlet

open Text

namespace Position

instance : LinearOrder Position :=
  LinearOrder.lift' (fun p => toLex (p.line, p.column)) fun p q h => by
    obtain ⟨hline, hcolumn⟩ := Prod.mk.inj (toLex_inj.mp h)
    cases p
    cases q
    simp_all

lemma lt_iff {p q : Position} :
    p < q ↔ p.line < q.line ∨ p.line = q.line ∧ p.column < q.column :=
  Prod.Lex.toLex_lt_toLex

lemma behind_lt_concat (cs : List Char) (c : Char) : behind cs < behind (cs ++ [c]) := by
  rw [lt_iff, behind_concat]
  split_ifs
  · exact .inl (Int.lt_succ _)
  · exact .inr ⟨rfl, Int.lt_succ _⟩

lemma behind_le_append (cs ds : List Char) : behind cs ≤ behind (cs ++ ds) := by
  induction ds using List.reverseRecOn with
  | nil => rw [List.append_nil]
  | append_singleton ds d ih =>
    rw [← List.append_assoc]
    exact ih.trans (behind_lt_concat _ d).le

lemma behind_lt_append (cs : List Char) {ds : List Char} (h : ds ≠ []) :
    behind cs < behind (cs ++ ds) := by
  obtain ⟨d, ds, rfl⟩ := List.exists_cons_of_ne_nil h
  rw [← List.singleton_append, ← List.append_assoc]
  exact (behind_lt_concat cs d).trans_le (behind_le_append _ ds)

lemma eq_of_behind_eq {front front' back back' : List Char} (h : front ++ back = front' ++ back')
    (hb : behind front = behind front') : front = front' := by
  have hnil {cs ds : List Char} (hlt : behind cs = behind (cs ++ ds)) : ds = [] := by
    by_contra hds
    exact (behind_lt_append cs hds).ne hlt
  rcases List.append_eq_append_iff.mp h with ⟨ds, rfl, -⟩ | ⟨ds, rfl, -⟩
  · rw [hnil hb, List.append_nil]
  · rw [hnil hb.symm, List.append_nil]

def Within (n : ℕ) (p : Position) : Prop := p.line ≤ n + 1 ∧ p.column ≤ n + 1

lemma within_behind {n : ℕ} {cs : List Char} (h : cs.length ≤ n) : (behind cs).Within n := by
  have hline : cs.count '\n' ≤ cs.length := List.count_le_length
  have hcolumn : (cs.rtakeWhile (· ≠ '\n')).length ≤ cs.length :=
    (List.rtakeWhile_suffix _ _).length_le
  simp only [Within, behind]
  omega

end Position

open Position

/-- The text holds the token's text from its start up to its stop, and at those two places only. -/
structure Token.Covers (t : Token) (text : List Char) : Prop where
  exists_piece : ∃ front back, text = front ++ t.text.toList ++ back ∧
    t.start = .behind front ∧ t.stop = .behind (front ++ t.text.toList)
  eq_piece : ∀ front word back, text = front ++ word ++ back → .behind front = t.start →
    .behind (front ++ word) = t.stop → t.text.toList = word

lemma Token.Covers.of_piece {t : Token} {text front back : List Char}
    (h : text = front ++ t.text.toList ++ back) (hstart : t.start = .behind front)
    (hstop : t.stop = .behind (front ++ t.text.toList)) : t.Covers text where
  exists_piece := ⟨front, back, h, hstart, hstop⟩
  eq_piece front' word' back' h' hstart' hstop' := by
    have heq := h.symm.trans h'
    have hwords := eq_of_behind_eq heq (hstop.symm.trans hstop'.symm)
    rw [List.append_assoc, List.append_assoc] at heq
    obtain rfl := eq_of_behind_eq heq (hstart.symm.trans hstart'.symm)
    exact List.append_cancel_left hwords

lemma Token.Covers.within {t : Token} {text : List Char} (h : t.Covers text) :
    t.start.Within text.length ∧ t.stop.Within text.length := by
  obtain ⟨front, back, rfl, hstart, hstop⟩ := h.exists_piece
  rw [hstart, hstop]
  exact ⟨within_behind (by simp), within_behind (by simp)⟩

namespace Piece

lemma le_start_of_mem {left last : List Char} {pieces : List Piece} {t : Token}
    (hb : (left ++ pieces.flatMap chars ++ last).length < 2 ^ 31 - 1)
    (ht : t ∈ tokens left pieces ++ [.endAt (counted (left ++ pieces.flatMap chars ++ last))]) :
    behind left ≤ t.start := by
  induction pieces generalizing left with
  | nil =>
    rw [List.flatMap_nil, List.append_nil] at hb ht
    obtain rfl : t = .endAt (counted (left ++ last)) := by simpa [tokens] using ht
    exact counted_of_length hb ▸ behind_le_append left last
  | cons p ps ih =>
    rw [List.flatMap_cons, ← List.append_assoc] at hb ht
    rcases List.mem_cons.mp ht with rfl | ht
    · rw [chars, ← List.append_assoc] at hb
      have hlength := length_lt_of_append (length_lt_of_append (length_lt_of_append hb))
      have hstart : (p.token left).start = behind (left ++ p.gap) := counted_of_length hlength
      exact hstart ▸ behind_le_append left p.gap
    · exact (behind_le_append left p.chars).trans (ih hb ht)

lemma pairwise_tokens {left last : List Char} {pieces : List Piece}
    (hb : (left ++ pieces.flatMap chars ++ last).length < 2 ^ 31 - 1) :
    List.Pairwise (fun t u : Token => t.stop ≤ u.start)
      (tokens left pieces ++ [.endAt (counted (left ++ pieces.flatMap chars ++ last))]) := by
  induction pieces generalizing left with
  | nil => exact List.pairwise_singleton _ _
  | cons p ps ih =>
    rw [List.flatMap_cons, ← List.append_assoc] at hb ⊢
    have hlength := length_lt_of_append (length_lt_of_append hb)
    have hstop : (p.token left).stop = behind (left ++ p.chars) := counted_of_length hlength
    rw [tokens, List.cons_append, List.pairwise_cons]
    exact ⟨fun u hu => hstop ▸ le_start_of_mem hb hu, ih hb⟩

end Piece

lemma Comment.Blanked.counted_eq_behind {front front' back : List Char}
    (h : Comment.Blanked front front') (hb : (front ++ back).length < 2 ^ 31 - 1) :
    counted front' = behind front := by
  rw [← h.counted_eq, counted_of_length (length_lt_of_append hb)]

lemma Cut.covers {left text last rest source : List Char} {pieces : List Piece}
    (h : Cut left text pieces last rest) (hs : Comment.Blanked source (left ++ text))
    (hb : source.length < 2 ^ 31 - 1) :
    ∀ t ∈ Piece.tokens left pieces, t.start < t.stop ∧ t.Covers source := by
  induction h with
  | gap _ => simp [Piece.tokens]
  | @word left gap kind word right pieces last rest _ hw _ ih =>
    rw [← List.append_assoc, ← List.append_assoc] at hs
    have hrest := ih hs
    obtain ⟨_, back, rfl, hs', -⟩ := hs.exists_append
    have hstop := hs'.counted_eq_behind hb
    obtain ⟨front, word', rfl, hfront, hword⟩ := hs'.exists_append
    obtain rfl := hword.eq_of_not_layout hw.not_layout
    rw [List.append_assoc] at hb
    have hstart := hfront.counted_eq_behind hb
    have htoken : Piece.token left ⟨gap, kind, word'⟩ =
        ⟨kind, .ofList word', behind front, behind (front ++ word')⟩ := by
      rw [Piece.token, Piece.chars, ← List.append_assoc, hstart, hstop]
    rw [Piece.tokens, List.forall_mem_cons, htoken]
    refine ⟨⟨behind_lt_append front hw.ne_nil, ?_⟩, by simpa [Piece.chars] using hrest⟩
    refine @Token.Covers.of_piece _ _ front back ?_ rfl ?_
    · simp
    · simp

lemma cut_of_tokenize {source : String} {tokens : List Token} (h : tokenize source = .ok tokens) :
    ∃ pieces last, Cut [] (Comment.blankAll source.toList) pieces last [] ∧
      tokens = Piece.tokens [] pieces ++ [.endAt (.counted source.toList)] := by
  obtain ⟨pieces, last, hcut⟩ := exists_cut_of_ok h
  refine ⟨pieces, last, hcut, Except.ok.inj (h.symm.trans ?_)⟩
  rw [tokenize_of_cut hcut, (Comment.blanked_blankAll source.toList).counted_eq, hcut.text_eq,
    List.append_nil]

/-- In a source that can be counted in 32 bits the tokens stand one behind the other, each with the
characters between its two places, and an error points at its character. -/
theorem tokenize_positions (source : String) (hb : source.length < 2 ^ 31 - 1) :
    (∀ tokens, tokenize source = .ok tokens →
      (∃ ts, tokens = ts ++ [.endAt (.behind source.toList)] ∧
        ∀ t ∈ ts, t.kind ≠ .eof ∧ t.start < t.stop ∧ t.Covers source.toList) ∧
      (tokens.Pairwise fun t u => t.stop ≤ u.start) ∧
      ∀ t ∈ tokens, t.start.Within source.length ∧ t.stop.Within source.length) ∧
    ∀ e, tokenize source = .error e →
      ∃ front back, source.toList = front ++ e.char :: back ∧ e.position = .behind front := by
  have hblanked := Comment.blanked_blankAll source.toList
  rw [← String.length_toList] at hb ⊢
  constructor
  · intro tokens h
    obtain ⟨pieces, last, hcut, rfl⟩ := cut_of_tokenize h
    have hcovers := hcut.covers hblanked hb
    have htext := hcut.text_eq
    rw [List.append_nil] at htext
    have hlength := hblanked.length_eq
    rw [htext] at hlength
    have hpairwise := @Piece.pairwise_tokens [] last pieces (hlength ▸ hb)
    rw [List.nil_append, ← htext, ← hblanked.counted_eq] at hpairwise
    rw [counted_of_length hb] at hpairwise ⊢
    refine ⟨⟨_, rfl, fun t ht => ⟨Piece.kind_tokens hcut.kind_ne_eof [] t ht, hcovers t ht⟩⟩,
      hpairwise, ?_⟩
    rw [List.forall_mem_append, List.forall_mem_singleton]
    exact ⟨fun t ht => (hcovers t ht).2.within, within_behind le_rfl, within_behind le_rfl⟩
  · intro e h
    obtain ⟨pieces, last, rest, hcut, hunknown, hposition⟩ := exists_cut_of_error h
    rw [hcut.text_eq] at hblanked
    obtain ⟨front, _, heq, hfront, hback⟩ := hblanked.exists_append
    obtain ⟨c, back, hc, -, rfl⟩ := List.forall₂_cons_right_iff.mp hback
    have hlayout : ¬ isLayout e.char := fun hl => hunknown (.inl (.inl hl))
    obtain rfl : c = e.char := hc.eq_of_not_layout hlayout
    exact ⟨front, back, heq, hposition.trans (hfront.counted_eq_behind (heq ▸ hb))⟩

theorem tokenize_positions_comments :
    let source := "/* é\n*/ ab// +\n+"
    let word : Token := ⟨.identifier, "ab", ⟨2, 4⟩, ⟨2, 6⟩⟩
    let sign : Token := ⟨.plus, "+", ⟨3, 1⟩, ⟨3, 2⟩⟩
    source.length < 2 ^ 31 - 1 ∧ tokenize source = .ok [word, sign, .endAt ⟨3, 2⟩] ∧
      word.Covers source.toList ∧ sign.Covers source.toList ∧ word.stop ≤ sign.start := by
  intro source word sign
  have hlength : source.length < 2 ^ 31 - 1 := by decide
  have htokens : tokenize source = .ok [word, sign, .endAt ⟨3, 2⟩] := by cbv
  obtain ⟨⟨ts, hts, hcovers⟩, hpairwise, -⟩ := (tokenize_positions source hlength).1 _ htokens
  obtain ⟨rfl, -⟩ : [word, sign] = ts ∧ _ := List.append_inj' hts rfl
  exact ⟨hlength, htokens, (hcovers word (by simp)).2.2, (hcovers sign (by simp)).2.2,
    List.rel_of_pairwise_cons hpairwise (by simp)⟩

end Varlet
