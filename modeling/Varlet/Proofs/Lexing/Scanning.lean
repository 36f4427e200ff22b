import Varlet.Proofs.Lexing.Places
import Varlet.Proofs.Lexing.Slices
import Varlet.Token.Scanner

/-! The scanner's state. The text that was consumed, the character in the slot and those behind it
are the input at all times, so a scan is the step of a cursor. -/

namespace Varlet

open Text

namespace Cursor

variable {c : Char} {cs : List Char} {o : ℕ} {p : Position}

lemma scan_gap {gap : List Char} (hg : ∀ c ∈ gap, isLayout c) (rest : List Char) (o : ℕ)
    (p : Position) : scan ⟨gap ++ rest, o, p⟩ = scan ⟨rest, o + size gap, p.after gap⟩ := by
  have hskip : skipLayout ⟨gap ++ rest, o, p⟩ = skipLayout ⟨rest, o + size gap, p.after gap⟩ := by
    simp only [skipLayout, advance, List.takeWhile_append_of_pos hg,
      List.dropWhile_append_of_pos hg, Position.after_append, utf8ByteSize_ofList, size_append,
      Nat.add_assoc]
  rw [scan, hskip, scan]

lemma skipLayout_of_not (hc : ¬ isLayout c) : skipLayout ⟨c :: cs, o, p⟩ = ⟨c :: cs, o, p⟩ := by
  simp [skipLayout, advance, hc]

lemma scan_nil (o : ℕ) (p : Position) : scan ⟨[], o, p⟩ = (.ok (.endAt p), ⟨[], o, p⟩) := by
  simp [scan, skipLayout, advance]

lemma scan_lexeme {l : Lexeme} (hc : ¬ isLayout c) (hl : Lexeme.next? c cs = some l) :
    scan ⟨c :: cs, o, p⟩ = (.ok ⟨l.kind, .ofList l.taken, p, p.after l.taken⟩,
      ⟨l.rest, o + size l.taken, p.after l.taken⟩) := by
  simp only [scan, skipLayout_of_not hc, hl]
  rfl

lemma scan_no_lexeme (hc : ¬ isLayout c) (hl : Lexeme.next? c cs = none) :
    scan ⟨c :: cs, o, p⟩ = (.error ⟨p, c⟩, ⟨cs, o + size [c], p.after [c]⟩) := by
  simp only [scan, skipLayout_of_not hc, hl]
  rfl

end Cursor

namespace Scanner

/-- The scanner stands behind `front`, and the token that it reads began behind `begun`. -/
structure Tracks (s : Scanner) (begun front : List Char) : Prop where
  input : s.input.toList = front ++ s.remaining
  index : s.index = size front
  position : s.position = .behind front
  isPrefix : begun <+: front
  startIndex : s.startIndex = size begun
  startPosition : s.startPosition = .behind begun

structure At (s : Scanner) (begun front : List Char) : Prop extends s.Tracks begun front where
  countable : s.input.length < 2 ^ 31 - 1

variable {s next : Scanner} {begun front word rest : List Char} {c : Char} {P : Char → Bool}

lemma tracks_ofString (text : String) : (ofString text).Tracks [] [] :=
  ⟨rfl, rfl, rfl, List.nil_prefix, rfl, rfl⟩

lemma at_ofString {text : String} (h : text.length < 2 ^ 31 - 1) : (ofString text).At [] [] :=
  ⟨tracks_ofString text, h⟩

lemma count_of_lt {n : ℤ} (h : n < 2 ^ 31 - 1) : count n = .ok (n + 1) := by
  have hlt : n < Position.greatest := h
  rw [count, Position.count, if_pos hlt, if_pos hlt]

lemma countPast_behind (h : front.length + 1 < 2 ^ 31 - 1) (c : Char) :
    countPast (.behind front) c = .ok (.behind (front ++ [c])) := by
  obtain ⟨hline, hcolumn⟩ := Position.within_behind (le_refl front.length)
  rw [Position.behind_concat, countPast, count_of_lt (by omega), count_of_lt (by omega)]
  split_ifs <;> rfl

lemma of_next? (h : s.next? = some (c, next)) : next.input = s.input ∧
    next.startIndex = s.startIndex ∧ next.startPosition = s.startPosition := by
  unfold next? at h
  split at h <;> cases h <;> exact ⟨rfl, rfl, rfl⟩

lemma consume_nil (hr : s.remaining = []) : s.consume = .ok (none, s) := by
  cases hn : s.next? with
  | none => rw [consume, hn]
  | some r => simp [remaining_of_next? hn] at hr

lemma input_peek (s : Scanner) : s.peek.2.input = s.input := by
  unfold Scanner.peek
  split <;> rfl

namespace Tracks

lemma peek (h : s.Tracks begun front) : s.peek.2.Tracks begun front := by
  unfold Scanner.peek
  split
  · exact h
  · exact h
  · next hp hc => exact { h with input := by simpa [remaining, hp, hc] using h.input }

lemma next? (h : s.Tracks begun front) {after : Scanner} (hn : s.next? = some (c, after)) :
    Tracks { after with index := s.index + c.utf8Size, position := .behind (front ++ [c]) }
      begun (front ++ [c]) := by
  obtain ⟨hi, hstart, hp⟩ := of_next? hn
  refine ⟨?_, ?_, rfl, h.isPrefix.trans (List.prefix_append _ _), hstart.trans h.startIndex,
    hp.trans h.startPosition⟩
  · change after.input.toList = _ ++ after.remaining
    rw [hi, h.input, remaining_of_next? hn, List.append_assoc, List.singleton_append]
  · change s.index + c.utf8Size = _
    rw [h.index, size_append, size_cons]
    rfl

lemma begin (h : s.Tracks begun front) : s.begin.Tracks front front :=
  ⟨h.input, h.index, h.position, List.prefix_refl front, h.index, h.position⟩

lemma lexeme (h : s.Tracks begun (begun ++ word)) : s.lexeme = .ok (.ofList word) := by
  have hslice := slice_eq begun word s.remaining h.input h.startIndex h.index
  rw [String.ofList_toList] at hslice
  rw [Scanner.lexeme, hslice]
  rfl

lemma makeToken (h : s.Tracks begun (begun ++ word)) (kind : Token.Kind) :
    s.makeToken kind = .ok ⟨kind, .ofList word, .behind begun, .behind (begun ++ word)⟩ := by
  rw [Scanner.makeToken, h.lexeme, h.startPosition, h.position]
  rfl

end Tracks

namespace At

lemma length_lt (h : s.At begun front) : front.length < 2 ^ 31 - 1 := by
  have hlength := congrArg List.length h.input
  have hcountable := h.countable
  rw [String.length_toList, List.length_append] at hlength
  omega

lemma peek (h : s.At begun front) : s.peek.2.At begun front :=
  ⟨h.toTracks.peek, s.input_peek ▸ h.countable⟩

lemma consume_cons (h : s.At begun front) (hr : s.remaining = c :: rest) :
    ∃ next, s.consume = .ok (some c, next) ∧ next.At begun (front ++ [c]) ∧
      next.remaining = rest := by
  have hlt : front.length + 1 < 2 ^ 31 - 1 := by
    have hlength := congrArg List.length h.input
    have hcountable := h.countable
    rw [String.length_toList, hr, List.length_append, List.length_cons] at hlength
    omega
  cases hn : s.next? with
  | none => simp [remaining_of_next?_eq_none hn] at hr
  | some r =>
    obtain ⟨d, after⟩ := r
    rw [remaining_of_next? hn] at hr
    obtain ⟨rfl, rfl⟩ := List.cons.inj hr
    have hcount := countPast_behind hlt d
    rw [← h.position] at hcount
    refine ⟨{ after with index := s.index + d.utf8Size, position := .behind (front ++ [d]) },
      ?_, ⟨h.toTracks.next? hn, (of_next? hn).1 ▸ h.countable⟩, rfl⟩
    rw [consume, hn]
    simp only [hcount, Except.map]

lemma seen (h : s.At begun front) {seen : Scanner} {c : Option Char} (hp : s.peek = (c, seen)) :
    seen.At begun front ∧ c = seen.remaining.head? ∧ seen.remaining = s.remaining := by
  obtain ⟨hhead, hseen⟩ := remaining_of_peek hp
  have hat := h.peek
  rw [hp] at hat
  exact ⟨hat, hseen ▸ hhead, hseen⟩

lemma consumeWhile (h : s.At begun front) : ∃ next, s.consumeWhile P = .ok next ∧
    next.At begun (front ++ s.remaining.takeWhile P) := by
  fun_induction Scanner.consumeWhile P s generalizing front with
  | case1 s seen hp =>
    obtain ⟨hseen, hhead, heq⟩ := h.seen hp
    rw [← heq, List.head?_eq_none_iff.mp hhead.symm]
    exact ⟨seen, rfl, by simpa using hseen⟩
  | case2 s c seen hp hc e he =>
    obtain ⟨hseen, hhead, -⟩ := h.seen hp
    obtain ⟨cs, hcs⟩ := List.head?_eq_some_iff.mp hhead.symm
    obtain ⟨next, hnext, -⟩ := hseen.consume_cons hcs
    cases he.symm.trans hnext
  | case3 s c seen hp hc d rest hd ih =>
    obtain ⟨hseen, hhead, heq⟩ := h.seen hp
    obtain ⟨cs, hcs⟩ := List.head?_eq_some_iff.mp hhead.symm
    obtain ⟨next, hnext, hat, hrest⟩ := hseen.consume_cons hcs
    obtain ⟨-, rfl⟩ := Prod.mk.inj (Except.ok.inj (hd.symm.trans hnext))
    obtain ⟨last, hlast, hat'⟩ := ih hat
    refine ⟨last, hlast, ?_⟩
    rw [← heq, hcs, List.takeWhile_cons_of_pos hc]
    simpa [hrest] using hat'
  | case4 s c seen hp hc =>
    obtain ⟨hseen, hhead, heq⟩ := h.seen hp
    obtain ⟨cs, hcs⟩ := List.head?_eq_some_iff.mp hhead.symm
    refine ⟨seen, rfl, ?_⟩
    rw [← heq, hcs, List.takeWhile_cons_of_neg hc, List.append_nil]
    exact hseen

lemma begin (h : s.At begun front) : s.begin.At front front :=
  ⟨h.toTracks.begin, h.countable⟩

lemma finish_of_some (h : s.At begun (begun ++ [c])) {l : Lexeme}
    (hl : Lexeme.next? c s.remaining = some l) :
    ∃ next, s.finish c = .ok (.ok ⟨l.kind, .ofList l.taken, .behind begun,
        .behind (begun ++ l.taken)⟩, next) ∧ next.At begun (begun ++ l.taken) ∧
      next.remaining = l.rest := by
  have hrun (P : Char → Bool) : ∃ next, s.consumeWhile P = .ok next ∧
      next.At begun (begun ++ c :: s.remaining.takeWhile P) ∧
      next.remaining = s.remaining.dropWhile P := by
    obtain ⟨next, hnext, hat⟩ := h.consumeWhile (P := P)
    rw [List.append_assoc, List.singleton_append] at hat
    exact ⟨next, hnext, hat, remaining_of_consumeWhile hnext⟩
  cases hp : Token.Kind.ofPunctuation? c with
  | some kind =>
    simp only [Lexeme.next?, hp, Option.some.injEq] at hl
    subst hl
    refine ⟨s, ?_, h, rfl⟩
    simp [Scanner.finish, hp, h.makeToken, bind, Except.bind, pure, Except.pure]
  | none =>
    simp only [Lexeme.next?, hp] at hl
    split_ifs at hl with hdigit hletter
    · cases hl
      obtain ⟨next, hnext, hat, hrest⟩ := hrun isDigit
      refine ⟨next, ?_, hat, hrest⟩
      simp [Scanner.finish, hp, hdigit, hnext, hat.makeToken, bind, Except.bind, pure, Except.pure]
    · cases hl
      obtain ⟨next, hnext, hat, hrest⟩ := hrun isLetter
      refine ⟨next, ?_, hat, hrest⟩
      simp [Scanner.finish, hp, hdigit, hletter, hnext, hat.lexeme, hat.makeToken, bind,
        Except.bind, pure, Except.pure]

lemma finish_of_none (h : s.At begun (begun ++ [c])) (hl : Lexeme.next? c s.remaining = none) :
    s.finish c = .ok (.error ⟨.behind begun, c⟩, s) := by
  cases hp : Token.Kind.ofPunctuation? c with
  | some kind => simp [Lexeme.next?, hp] at hl
  | none =>
    simp only [Lexeme.next?, hp] at hl
    split_ifs at hl with hdigit hletter
    simp [Scanner.finish, hp, hdigit, hletter, h.startPosition, pure, Except.pure]

end At

def cursor (s : Scanner) : Cursor := ⟨s.remaining, s.index, s.position⟩

lemma At.cursor_eq (h : s.At begun front) :
    s.cursor = ⟨s.remaining, size front, .behind front⟩ := by
  rw [cursor, h.index, h.position]

lemma cursor_begin (s : Scanner) : s.begin.cursor = s.cursor := rfl

lemma At.scan_skipped (h : s.At begun front) (hs : s.consumeWhile isSpace = .ok next) :
    ∃ gap, next.At begun (front ++ gap) ∧ (∀ c ∈ next.remaining.head?, ¬ isSpace c) ∧
      s.cursor.scan = next.cursor.scan := by
  obtain ⟨next', hnext, hat⟩ := h.consumeWhile (P := isSpace)
  obtain rfl := Except.ok.inj (hs.symm.trans hnext)
  have hrest := remaining_of_consumeWhile hs
  have hgap : ∀ c ∈ s.remaining.takeWhile isSpace, isLayout c := by
    intro c hc
    simp [isLayout, List.mem_takeWhile_imp hc]
  refine ⟨_, hat, hrest ▸ head_dropWhile_not s.remaining, ?_⟩
  have hscan := Cursor.scan_gap hgap next.remaining (size front) (.behind front)
  rw [hrest, List.takeWhile_append_dropWhile, ← hrest, ← size_append,
    Position.after_behind hat.length_lt] at hscan
  rw [h.cursor_eq, hscan, hat.cursor_eq]

lemma At.of_consume {c : Option Char} (h : s.At begun front) (hc : s.consume = .ok (c, next)) :
    (c = none ∧ s.remaining = [] ∧ next = s) ∨
      ∃ d, c = some d ∧ s.remaining = d :: next.remaining ∧ next.At begun (front ++ [d]) := by
  cases hr : s.remaining with
  | nil =>
    obtain ⟨rfl, rfl⟩ := Prod.mk.inj (Except.ok.inj (hc.symm.trans (consume_nil hr)))
    exact .inl ⟨rfl, rfl, rfl⟩
  | cons d ds =>
    obtain ⟨after, hafter, hat, rfl⟩ := h.consume_cons hr
    obtain ⟨rfl, rfl⟩ := Prod.mk.inj (Except.ok.inj (hc.symm.trans hafter))
    exact .inr ⟨d, rfl, rfl, hat⟩

lemma At.exists_consume (h : s.At begun front) : ∃ r, s.consume = .ok r := by
  cases hr : s.remaining with
  | nil => exact ⟨_, consume_nil hr⟩
  | cons d ds =>
    obtain ⟨next, hnext, -⟩ := h.consume_cons hr
    exact ⟨_, hnext⟩

lemma At.scan (h : s.At begun front) : ∃ r next begun' front', s.scan = .ok (r, next) ∧
    next.At begun' front' ∧ s.cursor.scan = (r, next.cursor) := by
  fun_induction Scanner.scan s generalizing begun front with
  | case1 s e hs =>
    obtain ⟨next, hnext, -⟩ := h.consumeWhile (P := isSpace)
    cases hs.symm.trans hnext
  | case2 s skipped hs e hc =>
    obtain ⟨gap, hat, -, -⟩ := h.scan_skipped hs
    obtain ⟨r, hr⟩ := hat.begin.exists_consume
    cases hc.symm.trans hr
  | case3 s skipped hs last hc =>
    obtain ⟨gap, hat, -, hscan⟩ := h.scan_skipped hs
    have hbegun := hat.begin
    obtain ⟨-, hnil, rfl⟩ | ⟨d, ⟨⟩, -⟩ := hbegun.of_consume hc
    have hempty : skipped.begin.At (front ++ gap) (front ++ gap ++ []) := by rwa [List.append_nil]
    refine ⟨_, skipped.begin, _, _, by rw [hempty.makeToken]; rfl, hbegun, ?_⟩
    rw [hscan, ← cursor_begin, hbegun.cursor_eq, hnil, Cursor.scan_nil, List.append_nil]
    rfl
  | case4 s skipped hs rest hc ih =>
    obtain ⟨gap, hat, -, hscan⟩ := h.scan_skipped hs
    obtain ⟨⟨⟩, -⟩ | ⟨d, ⟨rfl⟩, hcons, hrest⟩ := hat.begin.of_consume hc
    have hgap : ∀ c ∈ [';'], isLayout c := by simp [isLayout]
    have hskip := Cursor.scan_gap hgap rest.remaining (size (front ++ gap)) (.behind (front ++ gap))
    rw [List.singleton_append, ← hcons, ← hat.begin.cursor_eq, ← size_append,
      Position.after_behind hrest.length_lt, ← hrest.cursor_eq] at hskip
    rw [hscan, ← cursor_begin, hskip]
    exact ih hrest
  | case5 s skipped hs c rest hc hne =>
    obtain ⟨gap, hat, hhead, hscan⟩ := h.scan_skipped hs
    obtain ⟨⟨⟩, -⟩ | ⟨d, ⟨rfl⟩, hcons, hrest⟩ := hat.begin.of_consume hc
    have hlayout : ¬ isLayout c := by
      have hspace : ¬ isSpace c := hhead c (congrArg List.head? hcons)
      simp [isLayout, hspace, hne]
    rw [hscan, ← cursor_begin, hat.begin.cursor_eq, hcons]
    cases hl : Lexeme.next? c rest.remaining with
    | none =>
      refine ⟨_, rest, _, _, hrest.finish_of_none hl, hrest, ?_⟩
      rw [Cursor.scan_no_lexeme hlayout hl, hrest.cursor_eq, ← size_append,
        Position.after_behind hrest.length_lt]
    | some l =>
      obtain ⟨next, hnext, hat', hrest'⟩ := hrest.finish_of_some hl
      refine ⟨_, next, _, _, hnext, hat', ?_⟩
      rw [Cursor.scan_lexeme hlayout hl, hat'.cursor_eq, hrest', ← size_append,
        Position.after_behind hat'.length_lt]

lemma At.scanMany (h : s.At begun front) (count : ℕ) :
    s.scanMany count = .ok (s.cursor.scanMany count) := by
  induction count generalizing s begun front with
  | zero => rfl
  | succ count ih =>
    obtain ⟨r, next, begun', front', hscan, hat, hcursor⟩ := h.scan
    simp only [Scanner.scanMany, Cursor.scanMany, hscan, hcursor, bind, Except.bind, ih hat]
    rfl

lemma scanMany_ofString {text : String} (h : text.length < 2 ^ 31 - 1) (count : ℕ) :
    (ofString text).scanMany count = .ok ((Cursor.ofList text.toList).scanMany count) :=
  (at_ofString h).scanMany count

end Scanner

end Varlet
