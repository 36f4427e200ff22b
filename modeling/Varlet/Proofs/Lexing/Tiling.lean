import Varlet.Proofs.Lexing.Scanning

namespace Varlet

open Text

inductive Tile where
  | word (gap : List Char) (kind : Token.Kind) (text : List Char)
  | unknown (gap : List Char) (c : Char)

def Tile.results (left : List Char) : List Tile → List (Except LexError Token)
  | [] => []
  | .word gap kind text :: tiles =>
    .ok ⟨kind, .ofList text, .behind (left ++ gap), .behind (left ++ gap ++ text)⟩ ::
      results (left ++ gap ++ text) tiles
  | .unknown gap c :: tiles =>
    .error ⟨.behind (left ++ gap), c⟩ :: results (left ++ gap ++ [c]) tiles

inductive Tiles : List Char → List Char → List Tile → List Char → Prop
  | gap {left gap} : (∀ c ∈ gap, isLayout c) → Tiles left gap [] gap
  | word {left gap kind text right tiles last} : (∀ c ∈ gap, isLayout c) →
      IsWord (left ++ gap) kind text right → Tiles (left ++ gap ++ text) right tiles last →
      Tiles left (gap ++ text ++ right) (.word gap kind text :: tiles) last
  | unknown {left gap c right tiles last} : (∀ c ∈ gap, isLayout c) → ¬ Known c →
      Tiles (left ++ gap ++ [c]) right tiles last →
      Tiles left (gap ++ [c] ++ right) (.unknown gap c :: tiles) last

section

variable {left text last rest : List Char} {pieces : List Piece}

def Piece.tile (p : Piece) : Tile := .word p.gap p.kind p.word

lemma Cut.tiles (h : Cut left text pieces last []) :
    Tiles left text (pieces.map Piece.tile) last := by
  generalize hr : [] = rest at h
  induction h with
  | gap hg =>
    subst hr
    rw [List.append_nil]
    exact .gap hg
  | word hg hw _ ih => exact .word hg hw (ih hr)

lemma Cut.tiles_unknown {c : Char} {cs last' : List Char} {tiles : List Tile} (hc : ¬ Known c)
    (h : Cut left text pieces last (c :: cs))
    (ht : Tiles (left ++ pieces.flatMap Piece.chars ++ last ++ [c]) cs tiles last') :
    Tiles left text (pieces.map Piece.tile ++ .unknown last c :: tiles) last' := by
  generalize hr : c :: cs = rest at h
  induction h with
  | @gap left gap rest hg =>
    subst hr
    rw [List.flatMap_nil, List.append_nil] at ht
    simpa using Tiles.unknown hg hc ht
  | word hg hw _ ih => exact .word hg hw (ih (by simpa [Piece.chars] using ht) hr)

lemma exists_tiles (text left : List Char) (hp : Parted left text) :
    ∃ tiles last, Tiles left text tiles last := by
  induction hn : text.length using Nat.strong_induction_on generalizing text left with
  | h n ih =>
    obtain ⟨pieces, last, rest, hcut, hrest⟩ := Cut.exists_cut text left hp
    cases rest with
    | nil => exact ⟨_, _, hcut.tiles⟩
    | cons c cs =>
      have hc : ¬ Known c := hrest c rfl
      have hlt : cs.length < n := by
        have hlength := congrArg List.length hcut.text_eq
        simp only [List.length_append, List.length_cons] at hlength
        omega
      -- a character in no class prolongs no word
      have hparted : Parted (left ++ pieces.flatMap Piece.chars ++ last ++ [c]) cs := by
        intro d hd e _
        obtain rfl : c = d := by simpa using hd
        exact ⟨fun h => hc (.inr (.inl h.1)), fun h => hc (.inr (.inr h.1))⟩
      obtain ⟨tiles, last', ht⟩ := ih cs.length hlt cs _ hparted rfl
      exact ⟨_, _, hcut.tiles_unknown hc ht⟩

end

namespace Tiles

variable {left text last : List Char} {tiles : List Tile}

lemma length_le (h : Tiles left text tiles last) : tiles.length ≤ text.length := by
  induction h with
  | gap _ => exact Nat.zero_le _
  | word _ hw _ ih =>
    have hpos := List.length_pos_iff.mpr hw.ne_nil
    simp only [List.length_append, List.length_cons]
    omega
  | unknown _ _ _ ih =>
    simp only [List.length_append, List.length_cons]
    omega

lemma kind_ne_eof (h : Tiles left text tiles last) {t : Token}
    (ht : .ok t ∈ Tile.results left tiles) : t.kind ≠ .eof := by
  induction h with
  | gap _ => cases ht
  | word _ hw _ ih =>
    obtain ⟨c, cs, -, hnext⟩ := hw.exists_next?
    rw [Tile.results, List.mem_cons] at ht
    obtain heq | ht := ht
    · obtain rfl := Except.ok.inj heq
      exact Lexeme.kind_ne_eof hnext
    · exact ih ht
  | unknown _ _ _ ih =>
    rw [Tile.results, List.mem_cons] at ht
    obtain heq | ht := ht
    · cases heq
    · exact ih ht

end Tiles

namespace Cursor

variable {left gap right : List Char}

lemma scanMany_of_scan {k next : Cursor} {r : Except LexError Token} (h : k.scan = (r, next))
    (count : ℕ) : k.scanMany (count + 1) = r :: next.scanMany count := by
  rw [scanMany, h]

lemma scanMany_nil (o : ℕ) (p : Position) (count : ℕ) :
    scanMany ⟨[], o, p⟩ count = List.replicate count (.ok (.endAt p)) := by
  induction count with
  | zero => rfl
  | succ count ih => rw [scanMany_of_scan (scan_nil o p), ih, List.replicate_succ]

lemma scan_word_behind {kind : Token.Kind} {word : List Char} (hg : ∀ c ∈ gap, isLayout c)
    (hw : IsWord (left ++ gap) kind word right) (hb : (left ++ gap ++ word).length < 2 ^ 31 - 1)
    (o : ℕ) : ∃ o', scan ⟨gap ++ word ++ right, o, .behind left⟩ =
      (.ok ⟨kind, .ofList word, .behind (left ++ gap), .behind (left ++ gap ++ word)⟩,
        ⟨right, o', .behind (left ++ gap ++ word)⟩) := by
  obtain ⟨o', hscan⟩ := scan_word hg hw o (.behind left)
  rw [Position.after_behind (length_lt_of_append hb), Position.after_behind hb] at hscan
  exact ⟨o', hscan⟩

lemma scan_unknown_behind {c : Char} (hg : ∀ c ∈ gap, isLayout c) (hc : ¬ Known c)
    (hb : (left ++ gap ++ [c]).length < 2 ^ 31 - 1) (right : List Char) (o : ℕ) :
    ∃ o', scan ⟨gap ++ [c] ++ right, o, .behind left⟩ =
      (.error ⟨.behind (left ++ gap), c⟩, ⟨right, o', .behind (left ++ gap ++ [c])⟩) := by
  obtain ⟨o', hscan⟩ := scan_unknown hg hc right o (.behind left)
  rw [Position.after_behind (length_lt_of_append hb), Position.after_behind hb] at hscan
  rw [List.append_assoc]
  exact ⟨o', hscan⟩

lemma scanMany_tiles {text last : List Char} {tiles : List Tile} (h : Tiles left text tiles last)
    (hb : (left ++ text).length < 2 ^ 31 - 1) (o extra : ℕ) :
    scanMany ⟨text, o, .behind left⟩ (tiles.length + extra) =
      Tile.results left tiles ++ List.replicate extra (.ok (.endAt (.behind (left ++ text)))) := by
  induction h generalizing o with
  | @gap left gap hg =>
    rw [List.length_nil, Nat.zero_add, Tile.results, List.nil_append]
    cases extra with
    | zero => rfl
    | succ extra =>
      obtain ⟨o', hscan⟩ := scan_end hg o (.behind left)
      rw [Position.after_behind hb] at hscan
      rw [scanMany_of_scan hscan, scanMany_nil, List.replicate_succ]
  | @word left gap kind word right tiles last hg hw _ ih =>
    rw [← List.append_assoc, ← List.append_assoc] at hb ⊢
    obtain ⟨o', hscan⟩ := scan_word_behind hg hw (length_lt_of_append hb) o
    rw [List.length_cons, Nat.add_right_comm, scanMany_of_scan hscan, ih hb, Tile.results]
    rfl
  | @unknown left gap c right tiles last hg hc _ ih =>
    rw [← List.append_assoc, ← List.append_assoc] at hb ⊢
    obtain ⟨o', hscan⟩ := scan_unknown_behind hg hc (length_lt_of_append hb) right o
    rw [List.length_cons, Nat.add_right_comm, scanMany_of_scan hscan, ih hb, Tile.results]
    rfl

end Cursor

namespace Position

def shift (origin p : Position) : Position :=
  if p.line = 1 then ⟨origin.line, origin.column + p.column - 1⟩
  else ⟨origin.line + p.line - 1, p.column⟩

lemma shift_behind (front cs : List Char) :
    (behind front).shift (behind cs) = behind (front ++ cs) := by
  induction cs using List.reverseRecOn with
  | nil => simp [behind, shift]
  | append_singleton cs c ih =>
    have hline : (behind cs).line + 1 ≠ 1 := by
      simp only [behind]
      omega
    rw [← List.append_assoc, behind_concat, behind_concat, ← ih]
    by_cases hc : c = '\n'
    · simp only [hc, if_true, shift, hline, if_false]
      split_ifs <;> simp only [mk.injEq, and_true] <;> omega
    · simp only [hc, if_false, shift]
      split_ifs
      · simp only [mk.injEq, true_and]
        omega
      · rfl

end Position

def shiftResult (origin : Position) : Except LexError Token → Except LexError Token
  | .ok t => .ok { t with start := origin.shift t.start, stop := origin.shift t.stop }
  | .error e => .error { e with position := origin.shift e.position }

namespace Cursor

def shift (origin : Position) (offset : ℕ) (k : Cursor) : Cursor :=
  ⟨k.rest, offset + k.offset, origin.shift k.position⟩

/-- The cursor stands behind `cs`, in a text that could be counted with `front` before it. -/
structure Counts (k : Cursor) (front cs : List Char) : Prop where
  position : k.position = .behind cs
  countable : (front ++ cs ++ k.rest).length < 2 ^ 31 - 1

namespace Counts

variable {k : Cursor} {front cs taken rest : List Char}

lemma advance (hk : k.Counts front cs) (hr : k.rest = taken ++ rest) :
    (k.advance taken rest).Counts front (cs ++ taken) := by
  have hcountable := hk.countable
  rw [hr] at hcountable
  simp only [List.length_append] at hcountable
  constructor
  · rw [Cursor.advance, hk.position, Position.after_behind]
    rw [List.length_append]
    omega
  · simp only [Cursor.advance, List.length_append]
    omega

lemma shift_position (hk : k.Counts front cs) :
    (Position.behind front).shift k.position = .behind (front ++ cs) := by
  rw [hk.position, Position.shift_behind]

lemma shift_advance (hk : k.Counts front cs) (hr : k.rest = taken ++ rest) (offset : ℕ) :
    (k.shift (.behind front) offset).advance taken rest =
      (k.advance taken rest).shift (.behind front) offset := by
  have hcountable := hk.countable
  rw [hr, ← List.append_assoc] at hcountable
  have hplace := (hk.advance hr).shift_position
  rw [← List.append_assoc, ← Position.after_behind (length_lt_of_append hcountable),
    ← hk.shift_position] at hplace
  simp only [shift, Cursor.advance, Nat.add_assoc] at hplace ⊢
  rw [hplace]

lemma shift_scan (hk : k.Counts front cs) (offset : ℕ) :
    (k.shift (.behind front) offset).scan =
        (shiftResult (.behind front) k.scan.1, k.scan.2.shift (.behind front) offset) ∧
      ∃ cs', k.scan.2.Counts front cs' := by
  have hlayout : k.rest = k.rest.takeWhile isLayout ++ k.rest.dropWhile isLayout :=
    List.takeWhile_append_dropWhile.symm
  have hskip : (k.shift (.behind front) offset).skipLayout =
      k.skipLayout.shift (.behind front) offset := hk.shift_advance hlayout offset
  have hcounts : k.skipLayout.Counts front (cs ++ k.rest.takeWhile isLayout) := hk.advance hlayout
  simp only [scan, hskip]
  generalize k.skipLayout = j at hcounts ⊢
  obtain ⟨rest, o, p⟩ := j
  cases rest with
  | nil => exact ⟨rfl, _, hcounts⟩
  | cons d ds =>
    cases hl : Lexeme.next? d ds with
    | none =>
      have hr : d :: ds = [d] ++ ds := rfl
      have hadvance := hcounts.shift_advance hr offset
      simp only [shift] at hadvance ⊢
      simp only [hl, hadvance, shiftResult]
      exact ⟨trivial, _, hcounts.advance hr⟩
    | some l =>
      have hr : d :: ds = l.taken ++ l.rest := (Lexeme.taken_append_rest hl).symm
      have hadvance := hcounts.shift_advance hr offset
      simp only [shift] at hadvance ⊢
      simp only [hl, hadvance, shiftResult]
      exact ⟨trivial, _, hcounts.advance hr⟩

lemma shift_scanMany (hk : k.Counts front cs) (offset count : ℕ) :
    (k.shift (.behind front) offset).scanMany count =
      (k.scanMany count).map (shiftResult (.behind front)) := by
  induction count generalizing k cs with
  | zero => rfl
  | succ count ih =>
    obtain ⟨hscan, cs', hnext⟩ := hk.shift_scan offset
    rw [scanMany_of_scan hscan, ih hnext]
    rfl

end Counts

lemma scanMany_rest {front rest : List Char} (hb : (front ++ rest).length < 2 ^ 31 - 1)
    (offset count : ℕ) : scanMany ⟨rest, offset, .behind front⟩ count =
      ((ofList rest).scanMany count).map (shiftResult (.behind front)) := by
  have hk : (ofList rest).Counts front [] := ⟨rfl, by rwa [List.append_nil]⟩
  rw [← hk.shift_scanMany offset, shift, hk.shift_position, List.append_nil]
  rfl

end Cursor

lemma Tiles.resumes {left text last : List Char} {tiles : List Tile} {i : ℕ} {e : LexError}
    (h : Tiles left text tiles last) (hb : (left ++ text).length < 2 ^ 31 - 1)
    (he : (Tile.results left tiles)[i]? = some (.error e)) (o : ℕ) :
    ∃ front back o', text = front ++ e.char :: back ∧ e.position = .behind (left ++ front) ∧
      ∀ count, Cursor.scanMany ⟨text, o, .behind left⟩ (i + 1 + count) =
        (Tile.results left tiles).take (i + 1) ++
          Cursor.scanMany ⟨back, o', .behind (left ++ front ++ [e.char])⟩ count := by
  induction h generalizing i o with
  | gap _ => cases he
  | @word left gap kind word right tiles last hg hw _ ih =>
    rw [← List.append_assoc, ← List.append_assoc] at hb
    obtain ⟨o', hscan⟩ := Cursor.scan_word_behind hg hw (length_lt_of_append hb) o
    cases i with
    | zero => cases he
    | succ i =>
      obtain ⟨front, back, o'', rfl, hposition, hrest⟩ := ih hb he o'
      refine ⟨gap ++ word ++ front, back, o'', by simp, by simpa using hposition, fun count => ?_⟩
      rw [Nat.add_right_comm, Cursor.scanMany_of_scan hscan, hrest, Tile.results]
      simp
  | @unknown left gap c right tiles last hg hc _ ih =>
    rw [← List.append_assoc, ← List.append_assoc] at hb
    obtain ⟨o', hscan⟩ := Cursor.scan_unknown_behind hg hc (length_lt_of_append hb) right o
    cases i with
    | zero =>
      cases he
      refine ⟨gap, right, o', by simp, rfl, fun count => ?_⟩
      rw [Nat.zero_add, Nat.add_comm, Cursor.scanMany_of_scan hscan, Tile.results]
      simp
    | succ i =>
      obtain ⟨front, back, o'', rfl, hposition, hrest⟩ := ih hb he o'
      refine ⟨gap ++ [c] ++ front, back, o'', by simp, by simpa using hposition, fun count => ?_⟩
      rw [Nat.add_right_comm, Cursor.scanMany_of_scan hscan, hrest, Tile.results]
      simp

namespace Scanner

/-- Scanned on and on, a text gives its words and bad characters, and then the end for ever. Behind
a bad character the results are those of the rest, moved to where that rest begins. -/
theorem scan_tiles (text : String) (h : text.length < 2 ^ 31 - 1) :
    (∀ count, (ofString text).scanMany count = .ok ((Cursor.ofList text.toList).scanMany count)) ∧
    ∃ tiles last, Tiles [] text.toList tiles last ∧ tiles.length ≤ text.length ∧
      (∀ t, .ok t ∈ Tile.results [] tiles → t.kind ≠ .eof) ∧
      (∀ extra, (ofString text).scanMany (tiles.length + extra) =
        .ok (Tile.results [] tiles ++
          List.replicate extra (.ok (.endAt (.behind text.toList))))) ∧
      ∀ i e, (Tile.results [] tiles)[i]? = some (.error e) →
        ∃ front back, text.toList = front ++ e.char :: back ∧ e.position = .behind front ∧
          ∀ count, ∃ fresh, (ofString (.ofList back)).scanMany count = .ok fresh ∧
            (ofString text).scanMany (i + 1 + count) =
              .ok ((Tile.results [] tiles).take (i + 1) ++
                fresh.map (shiftResult (.behind (front ++ [e.char])))) := by
  have hscan := scanMany_ofString h
  have hb : ([] ++ text.toList).length < 2 ^ 31 - 1 := by
    rwa [List.nil_append, String.length_toList]
  obtain ⟨tiles, last, ht⟩ := exists_tiles text.toList [] (by simp [Parted])
  refine ⟨hscan, tiles, last, ht, ?_, fun t => ht.kind_ne_eof, fun extra => ?_, fun i e he => ?_⟩
  · rw [← String.length_toList]
    exact ht.length_le
  · rw [hscan]
    exact congrArg Except.ok (Cursor.scanMany_tiles ht hb 0 extra)
  · obtain ⟨front, back, o, htext, hposition, hrest⟩ := ht.resumes hb he 0
    have hback : (String.ofList back).length < 2 ^ 31 - 1 := by
      have hlength := congrArg List.length htext
      rw [String.length_toList, List.length_append, List.length_cons] at hlength
      rw [String.length_ofList]
      omega
    refine ⟨front, back, htext, hposition, fun count => ⟨_, scanMany_ofString hback count, ?_⟩⟩
    rw [hscan, String.toList_ofList, ← Cursor.scanMany_rest (by simpa [htext] using hb) o]
    exact congrArg Except.ok (hrest count)

theorem scan_tiles_errors :
    let text := "x;#\n@12"
    (ofString text).scanMany 6 = .ok [.ok ⟨.identifier, "x", ⟨1, 1⟩, ⟨1, 2⟩⟩,
      .error ⟨⟨1, 3⟩, '#'⟩, .error ⟨⟨2, 1⟩, '@'⟩, .ok ⟨.number, "12", ⟨2, 2⟩, ⟨2, 4⟩⟩,
      .ok (.endAt ⟨2, 4⟩), .ok (.endAt ⟨2, 4⟩)] ∧
    ∃ tiles last, Tiles [] text.toList tiles last ∧ tiles.length ≤ 7 ∧
      ∀ extra, (ofString text).scanMany (tiles.length + extra) =
        .ok (Tile.results [] tiles ++ List.replicate extra (.ok (.endAt ⟨2, 4⟩))) := by
  intro text
  obtain ⟨hscan, tiles, last, ht, hlength, -, hresults, -⟩ := scan_tiles text (by decide)
  have hend : Position.behind text.toList = ⟨2, 4⟩ := by decide
  rw [hend] at hresults
  refine ⟨?_, tiles, last, ht, hlength.trans (by decide), hresults⟩
  rw [hscan]
  cbv

end Scanner

end Varlet
