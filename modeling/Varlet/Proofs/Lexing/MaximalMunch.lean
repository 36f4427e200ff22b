import Varlet.Proofs.Lexing.Cut

namespace Varlet

open Text

lemma length_lt_of_append {cs ds : List Char} {n : ℕ} (h : (cs ++ ds).length < n) :
    cs.length < n :=
  (List.prefix_append cs ds).length_le.trans_lt h

namespace Position

def behind (cs : List Char) : Position :=
  ⟨1 + cs.count '\n', 1 + (cs.rtakeWhile (· ≠ '\n')).length⟩

lemma behind_concat (cs : List Char) (c : Char) : behind (cs ++ [c]) =
    if c = '\n' then ⟨(behind cs).line + 1, 1⟩ else ⟨(behind cs).line, (behind cs).column + 1⟩ := by
  split_ifs with hc
  · simp [behind, hc, add_assoc]
  · simp [behind, hc, add_assoc]

/-- The same place in numbers of 32 bits. -/
def wrapped (p : Position) : Position := ⟨p.line.bmod (2 ^ 32), p.column.bmod (2 ^ 32)⟩

lemma count_bmod (n : ℤ) : count (n.bmod (2 ^ 32)) = (n + 1).bmod (2 ^ 32) := by
  simp only [count, greatest, Int.bmod_def]
  split_ifs <;> omega

lemma wrapped_step (cs : List Char) (c : Char) :
    (behind cs).wrapped.step c = (behind (cs ++ [c])).wrapped := by
  rw [behind_concat, step]
  split_ifs
  · simp only [wrapped, count_bmod]
    rfl
  · simp only [wrapped, count_bmod]

def counted (cs : List Char) : Position := start.after cs

lemma after_counted (cs ds : List Char) : (counted cs).after ds = counted (cs ++ ds) :=
  (after_append start cs ds).symm

lemma counted_eq (cs : List Char) : counted cs = (behind cs).wrapped := by
  induction cs using List.reverseRecOn with
  | nil => rfl
  | append_singleton cs c ih => rw [← after_counted, ih, after_cons, after_nil, wrapped_step]

lemma wrapped_behind {cs : List Char} (h : cs.length < 2 ^ 31 - 1) :
    (behind cs).wrapped = behind cs := by
  have hline : cs.count '\n' ≤ cs.length := List.count_le_length
  have hcolumn : (cs.rtakeWhile (· ≠ '\n')).length ≤ cs.length :=
    (List.rtakeWhile_suffix _ _).length_le
  simp only [wrapped, behind]
  rw [Int.bmod_eq_of_le, Int.bmod_eq_of_le] <;> omega

lemma counted_of_length {cs : List Char} (h : cs.length < 2 ^ 31 - 1) : counted cs = behind cs := by
  rw [counted_eq, wrapped_behind h]

lemma after_behind {cs ds : List Char} (h : (cs ++ ds).length < 2 ^ 31 - 1) :
    (behind cs).after ds = behind (cs ++ ds) := by
  rw [← counted_of_length (length_lt_of_append h), after_counted, counted_of_length h]

end Position

namespace Piece

def chars (p : Piece) : List Char := p.gap ++ p.word

def token (left : List Char) (p : Piece) : Token :=
  ⟨p.kind, .ofList p.word, .counted (left ++ p.gap), .counted (left ++ p.chars)⟩

def tokens (left : List Char) : List Piece → List Token
  | [] => []
  | p :: ps => p.token left :: tokens (left ++ p.chars) ps

lemma kind_tokens {pieces : List Piece} (h : ∀ p ∈ pieces, p.kind ≠ .eof) (left : List Char) :
    ∀ t ∈ tokens left pieces, t.kind ≠ .eof := by
  induction pieces generalizing left with
  | nil => simp [tokens]
  | cons p ps ih =>
    rw [List.forall_mem_cons] at h
    rw [tokens, List.forall_mem_cons]
    exact ⟨h.1, ih h.2 _⟩

lemma map_tokens (left : List Char) (ps : List Piece) :
    (tokens left ps).map (fun t => (t.kind, t.text)) =
      ps.map fun p => (p.kind, .ofList p.word) := by
  induction ps generalizing left with
  | nil => rfl
  | cons p ps ih => simp [tokens, token, ih]

end Piece

namespace Cut

variable {left text last rest : List Char} {pieces : List Piece}

lemma text_eq (h : Cut left text pieces last rest) :
    text = pieces.flatMap Piece.chars ++ last ++ rest := by
  induction h with
  | gap _ => simp
  | word _ _ _ ih => simp [Piece.chars, ih]

lemma last_layout (h : Cut left text pieces last rest) : ∀ c ∈ last, isLayout c := by
  induction h with
  | gap hg => exact hg
  | word _ _ _ ih => exact ih

lemma kind_ne_eof (h : Cut left text pieces last rest) : ∀ p ∈ pieces, p.kind ≠ .eof := by
  induction h with
  | gap _ => simp
  | word _ hw _ ih =>
    obtain ⟨c, cs, -, hnext⟩ := hw.exists_next?
    rw [List.forall_mem_cons]
    exact ⟨Lexeme.kind_ne_eof hnext, ih⟩

end Cut

namespace Cursor

lemma tokens_of_scan_error {k : Cursor} {e : LexError} (h : k.scan.1 = .error e)
    (before : List Token) : k.tokens before = .error e := by
  rw [tokens]
  split <;> simp_all

lemma tokens_of_scan_eof {k : Cursor} {t : Token} (h : k.scan.1 = .ok t)
    (ht : t.kind = .eof) (before : List Token) : k.tokens before = .ok (before.reverse ++ [t]) := by
  rw [tokens]
  split <;> simp_all

lemma tokens_of_scan {k next : Cursor} {t : Token} (h : k.scan = (.ok t, next))
    (ht : t.kind ≠ .eof) (before : List Token) : k.tokens before = next.tokens (t :: before) := by
  rw [tokens]
  split <;> simp_all

variable {left gap word right : List Char} {kind : Token.Kind} {c : Char}

lemma skipLayout_gap (hg : ∀ c ∈ gap, isLayout c) (hr : ∀ c ∈ right.head?, ¬ isLayout c)
    (offset : ℕ) (p : Position) : skipLayout ⟨gap ++ right, offset, p⟩ =
      ⟨right, offset + (String.ofList gap).utf8ByteSize, p.after gap⟩ := by
  simp only [skipLayout, takeWhile_append_stop hg hr, dropWhile_append_stop hg hr, advance]

lemma scan_end (hg : ∀ c ∈ gap, isLayout c) (offset : ℕ) (p : Position) :
    ∃ offset', scan ⟨gap, offset, p⟩ =
      (.ok (.endAt (p.after gap)), ⟨[], offset', p.after gap⟩) := by
  have hskip := @skipLayout_gap gap [] hg (by simp) offset p
  rw [List.append_nil] at hskip
  exact ⟨offset + (String.ofList gap).utf8ByteSize, by simp only [scan, hskip]⟩

lemma scan_unknown (hg : ∀ c ∈ gap, isLayout c) (hc : ¬ Known c) (right : List Char) (offset : ℕ)
    (p : Position) : ∃ offset', scan ⟨gap ++ c :: right, offset, p⟩ =
      (.error ⟨p.after gap, c⟩, ⟨right, offset', (p.after gap).after [c]⟩) := by
  have hr : ∀ d ∈ (c :: right).head?, ¬ isLayout d := by
    rintro d ⟨rfl⟩ hd
    exact hc (.inl (.inl hd))
  have hskip := skipLayout_gap hg hr offset p
  exact ⟨offset + (String.ofList gap).utf8ByteSize + (String.ofList [c]).utf8ByteSize,
    by simp only [scan, hskip, Lexeme.next?_eq_none hc, advance]⟩

lemma scan_word (hg : ∀ c ∈ gap, isLayout c) (hw : IsWord (left ++ gap) kind word right)
    (offset : ℕ) (p : Position) : ∃ offset', scan ⟨gap ++ word ++ right, offset, p⟩ =
      (.ok ⟨kind, .ofList word, p.after gap, (p.after gap).after word⟩,
        ⟨right, offset', (p.after gap).after word⟩) := by
  have hskip := skipLayout_gap hg hw.head_not_layout offset p
  obtain ⟨c, cs, heq, hnext⟩ := hw.exists_next?
  rw [List.append_assoc]
  rw [heq] at hskip ⊢
  exact ⟨offset + (String.ofList gap).utf8ByteSize + (String.ofList word).utf8ByteSize,
    by simp only [scan, hskip, hnext, advance]⟩

lemma tokens_end (hg : ∀ c ∈ gap, isLayout c) (left : List Char) (offset : ℕ)
    (before : List Token) : tokens ⟨gap, offset, .counted left⟩ before =
      .ok (before.reverse ++ [.endAt (.counted (left ++ gap))]) := by
  obtain ⟨offset', hscan⟩ := scan_end hg offset (.counted left)
  rw [Position.after_counted] at hscan
  exact tokens_of_scan_eof (congrArg Prod.fst hscan) rfl before

lemma tokens_unknown (hg : ∀ c ∈ gap, isLayout c) (hc : ¬ Known c) (left right : List Char)
    (offset : ℕ) (before : List Token) :
    tokens ⟨gap ++ c :: right, offset, .counted left⟩ before =
      .error ⟨.counted (left ++ gap), c⟩ := by
  obtain ⟨offset', hscan⟩ := scan_unknown hg hc right offset (.counted left)
  rw [Position.after_counted] at hscan
  exact tokens_of_scan_error (congrArg Prod.fst hscan) before

lemma tokens_word (hg : ∀ c ∈ gap, isLayout c) (hw : IsWord (left ++ gap) kind word right)
    (offset : ℕ) (before : List Token) :
    ∃ offset', tokens ⟨gap ++ word ++ right, offset, .counted left⟩ before =
      tokens ⟨right, offset', .counted (left ++ gap ++ word)⟩
        (Piece.token left ⟨gap, kind, word⟩ :: before) := by
  obtain ⟨offset', hscan⟩ := scan_word hg hw offset (.counted left)
  obtain ⟨c, cs, -, hnext⟩ := hw.exists_next?
  rw [Position.after_counted, Position.after_counted] at hscan
  refine ⟨offset', ?_⟩
  rw [tokens_of_scan hscan (Lexeme.kind_ne_eof hnext), Piece.token, Piece.chars, List.append_assoc]

lemma tokens_cut {text last rest : List Char} {pieces : List Piece}
    (h : Cut left text pieces last rest) (offset : ℕ) (before : List Token) :
    ∃ offset', tokens ⟨text, offset, .counted left⟩ before =
      tokens ⟨last ++ rest, offset', .counted (left ++ pieces.flatMap Piece.chars)⟩
        ((Piece.tokens left pieces).reverse ++ before) := by
  induction h generalizing offset before with
  | gap _ => exact ⟨offset, by simp [Piece.tokens]⟩
  | word hg hw _ ih =>
    obtain ⟨offset', hword⟩ := tokens_word hg hw offset before
    obtain ⟨offset'', hrun⟩ := ih offset' _
    exact ⟨offset'', by simpa [Piece.tokens, Piece.chars] using hword.trans hrun⟩

end Cursor

section

variable {source : String} {pieces : List Piece} {last : List Char}

lemma tokenize_eq (source : String) :
    tokenize source = Cursor.tokens ⟨Comment.blankAll source.toList, 0, .counted []⟩ [] := rfl

lemma tokenize_of_cut (h : Cut [] (Comment.blankAll source.toList) pieces last []) :
    tokenize source = .ok (Piece.tokens [] pieces ++
      [.endAt (.counted (pieces.flatMap Piece.chars ++ last))]) := by
  obtain ⟨offset, hrun⟩ := Cursor.tokens_cut h 0 []
  rw [tokenize_eq, hrun, List.append_nil, Cursor.tokens_end h.last_layout]
  simp

lemma tokenize_of_unknown {c : Char} {cs : List Char} (hc : ¬ Known c)
    (h : Cut [] (Comment.blankAll source.toList) pieces last (c :: cs)) :
    tokenize source = .error ⟨.counted (pieces.flatMap Piece.chars ++ last), c⟩ := by
  obtain ⟨offset, hrun⟩ := Cursor.tokens_cut h 0 []
  rw [tokenize_eq, hrun, Cursor.tokens_unknown h.last_layout hc, List.nil_append]

lemma exists_cut_of_ok {tokens : List Token} (h : tokenize source = .ok tokens) :
    ∃ pieces last, Cut [] (Comment.blankAll source.toList) pieces last [] := by
  obtain ⟨pieces, last, rest, hcut, hrest⟩ :=
    Cut.exists_cut (Comment.blankAll source.toList) [] (by simp [Parted])
  cases rest with
  | nil => exact ⟨pieces, last, hcut⟩
  | cons c rest => simp [tokenize_of_unknown (hrest c rfl) hcut] at h

lemma exists_cut_of_error {e : LexError} (h : tokenize source = .error e) :
    ∃ pieces last rest, Cut [] (Comment.blankAll source.toList) pieces last (e.char :: rest) ∧
      ¬ Known e.char ∧ e.position = .counted (pieces.flatMap Piece.chars ++ last) := by
  obtain ⟨pieces, last, rest, hcut, hrest⟩ :=
    Cut.exists_cut (Comment.blankAll source.toList) [] (by simp [Parted])
  cases rest with
  | nil => simp [tokenize_of_cut hcut] at h
  | cons c rest =>
    have hc : ¬ Known c := hrest c rfl
    obtain rfl := Except.error.inj ((tokenize_of_unknown hc hcut).symm.trans h)
    exact ⟨pieces, last, rest, hcut, hc, rfl⟩

end

structure IsMaximalMunch (text : List Char) (outcome : Except LexError (List Token)) : Prop where
  error_iff : (∃ e, outcome = .error e) ↔ ∃ c ∈ text, ¬ Known c
  error_first : ∀ e, outcome = .error e → ∃ front rest, text = front ++ e.char :: rest ∧
    (∀ c ∈ front, Known c) ∧ ¬ Known e.char ∧ e.position = (Position.behind front).wrapped ∧
    (front.length < 2 ^ 31 - 1 → e.position = .behind front)
  tokens : (∀ c ∈ text, Known c) → ∃ pieces last, Cut [] text pieces last [] ∧
    (∀ pieces' last', Cut [] text pieces' last' [] → pieces' = pieces ∧ last' = last) ∧
    ∃ ts final, outcome = .ok (ts ++ [final]) ∧
      ts.map (fun t => (t.kind, t.text)) = pieces.map (fun p => (p.kind, .ofList p.word)) ∧
      (∀ t ∈ ts, t.kind ≠ .eof) ∧ final.kind = .eof ∧ final.text = ""

theorem tokenize_maximal_munch (source : String) :
    IsMaximalMunch (Comment.strip source).toList (tokenize source) := by
  rw [Comment.strip, String.toList_ofList]
  set text := Comment.blankAll source.toList
  obtain ⟨pieces, last, rest, hcut, hrest⟩ := Cut.exists_cut text [] (by simp [Parted])
  have heq := hcut.text_eq
  obtain ⟨front, hfront, hknown⟩ := hcut.exists_known
  obtain rfl : front = pieces.flatMap Piece.chars ++ last :=
    List.append_cancel_right (hfront.symm.trans heq)
  cases rest with
  | nil =>
    have htokens := tokenize_of_cut hcut
    rw [List.append_nil] at heq
    refine ⟨?_, by simp [htokens],
      fun _ => ⟨pieces, last, hcut, ?_, _, _, htokens, ?_, ?_, rfl, rfl⟩⟩
    · simpa [htokens, heq] using hknown
    · intro pieces' last' hcut'
      obtain ⟨rfl, rfl, -⟩ := hcut'.unique hcut (by simp) (by simp)
      exact ⟨rfl, rfl⟩
    · exact Piece.map_tokens [] pieces
    · exact Piece.kind_tokens hcut.kind_ne_eof []
  | cons c cs =>
    have hc : ¬ Known c := hrest c rfl
    have herror := tokenize_of_unknown hc hcut
    have hmem : c ∈ text := by simp [heq]
    refine ⟨⟨fun _ => ⟨c, hmem, hc⟩, fun _ => ⟨_, herror⟩⟩, ?_, fun hall => absurd (hall c hmem) hc⟩
    intro e he
    rw [herror] at he
    cases he
    exact ⟨_, cs, heq, hknown, hc, Position.counted_eq _, Position.counted_of_length⟩

end Varlet
