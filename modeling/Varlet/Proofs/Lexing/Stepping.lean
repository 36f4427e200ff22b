import Varlet.Proofs.Lexing.Scanning

namespace Varlet

open Relation Text

lemma Text.valid_of_slice {text piece : String} {start stop : ℕ}
    (h : slice text start stop = .ok piece) : start ≤ stop ∧
      String.Pos.Raw.IsValid text ⟨start⟩ ∧ String.Pos.Raw.IsValid text ⟨stop⟩ := by
  unfold slice at h
  split at h
  · rename_i hrange
    split at h
    · rename_i hvalid
      exact ⟨hrange.1, hvalid⟩
    · cases h
  · cases h

namespace Scanner

inductive Step : Scanner → Scanner → Prop
  | peek (s) : Step s s.peek.2
  | consume {s c next} : s.consume = .ok (c, next) → Step s next
  | begin (s) : Step s s.begin

abbrev Steps : Scanner → Scanner → Prop := ReflTransGen Step

/-- The scanner of a text comes to a result that `Q` describes, or breaks off since the text has
more places than can be counted. -/
inductive Yields (text : String) {α : Type} (Q : α → Prop) : Except ScanFault α → Prop
  | done {a} : Q a → Yields text Q (.ok a)
  | overflow : 2 ^ 31 - 1 ≤ text.length → Yields text Q (.error .overflow)

section

variable {text : String} {α β : Type} {Q : α → Prop} {R : β → Prop} {x : Except ScanFault α}

lemma Yields.bind {f : α → Except ScanFault β} (h : Yields text Q x)
    (hf : ∀ a, Q a → Yields text R (f a)) : Yields text R (x >>= f) := by
  cases h with
  | done ha => exact hf _ ha
  | overflow hlength => exact .overflow hlength

lemma Yields.map {f : α → β} (h : Yields text Q x) (hf : ∀ a, Q a → R (f a)) :
    Yields text R (x.map f) := by
  cases h with
  | done ha => exact .done (hf _ ha)
  | overflow hlength => exact .overflow hlength

lemma Yields.mono {P : α → Prop} (h : Yields text Q x) (hP : ∀ a, Q a → P a) :
    Yields text P x := by
  cases h with
  | done ha => exact .done (hP _ ha)
  | overflow hlength => exact .overflow hlength

lemma Yields.of_error {e : ScanFault} (h : Yields text Q (.error e)) :
    Yields text R (.error e) := by
  cases h with
  | overflow hlength => exact .overflow hlength

lemma Yields.of_ok {a : α} (h : Yields text Q (.ok a)) : Q a := by
  cases h with
  | done ha => exact ha

end

variable {text : String} {s t next : Scanner} {begun front : List Char} {c : Option Char}

lemma countPast_eq (front : List Char) (c : Char) :
    countPast (.behind front) c = .ok (.behind (front ++ [c])) ∨
      countPast (.behind front) c = .error .overflow := by
  rw [Position.behind_concat]
  unfold countPast count Position.count
  split_ifs <;> simp [Except.map]

namespace Tracks

lemma consume_eq (h : s.Tracks begun front) :
    s.consume = .ok (none, s) ∨ s.consume = .error .overflow ∨
      ∃ c after, s.next? = some (c, after) ∧ s.consume = .ok (some c,
        { after with index := s.index + c.utf8Size, position := .behind (front ++ [c]) }) := by
  unfold Scanner.consume
  cases hn : s.next? with
  | none => exact .inl rfl
  | some r =>
    obtain ⟨c, after⟩ := r
    rw [h.position]
    obtain hp | hp := countPast_eq front c
    · exact .inr (.inr ⟨c, after, rfl, by simp only [hp, Except.map]⟩)
    · exact .inr (.inl (by simp only [hp, Except.map]))

lemma consume (h : s.Tracks begun front) (hc : s.consume = .ok (c, next)) :
    next.input = s.input ∧ ∃ front', next.Tracks begun front' := by
  obtain heq | heq | ⟨d, after, hn, heq⟩ := h.consume_eq
  · obtain ⟨-, rfl⟩ := Prod.mk.inj (Except.ok.inj (hc.symm.trans heq))
    exact ⟨rfl, front, h⟩
  · cases hc.symm.trans heq
  · obtain ⟨-, rfl⟩ := Prod.mk.inj (Except.ok.inj (hc.symm.trans heq))
    exact ⟨(of_next? hn).1, _, h.next? hn⟩

end Tracks

lemma Step.tracks (hs : Step s t) (h : s.Tracks begun front) :
    t.input = s.input ∧ ∃ begun' front', t.Tracks begun' front' := by
  cases hs with
  | peek => exact ⟨s.input_peek, begun, front, h.peek⟩
  | consume hc =>
    obtain ⟨hinput, front', hnext⟩ := h.consume hc
    exact ⟨hinput, begun, front', hnext⟩
  | begin => exact ⟨rfl, front, front, h.begin⟩

lemma Steps.tracks (h : (ofString text).Steps s) :
    s.input = text ∧ ∃ begun front, s.Tracks begun front := by
  induction h with
  | refl => exact ⟨rfl, [], [], tracks_ofString text⟩
  | tail _ hs ih =>
    obtain ⟨hinput, begun, front, htracks⟩ := ih
    obtain ⟨heq, hnext⟩ := hs.tracks htracks
    exact ⟨heq.trans hinput, hnext⟩

lemma step_of_peek (hp : s.peek = (c, next)) : Step s next := by
  have hs := Step.peek s
  rwa [hp] at hs

lemma yields_consume (h : (ofString text).Steps s) :
    Yields text (fun r => Steps s r.2) s.consume := by
  cases hc : s.consume with
  | ok r => exact .done (.single (.consume hc))
  | error e =>
    obtain ⟨hinput, begun, front, htracks⟩ := Steps.tracks h
    obtain rfl : e = .overflow := by
      obtain heq | heq | ⟨d, after, -, heq⟩ := htracks.consume_eq
      · cases hc.symm.trans heq
      · exact Except.error.inj (hc.symm.trans heq)
      · cases hc.symm.trans heq
    -- in a shorter text the scanner is `At` its place, and there every count succeeds
    refine .overflow (not_lt.mp fun hlt => ?_)
    obtain ⟨r, hr⟩ := At.exists_consume ⟨htracks, hinput ▸ hlt⟩
    cases hc.symm.trans hr

lemma yields_consumeWhile (h : (ofString text).Steps s) (P : Char → Bool) :
    Yields text (fun next => Steps s next) (s.consumeWhile P) := by
  fun_induction Scanner.consumeWhile P s with
  | case1 s seen hp => exact .done (.single (step_of_peek hp))
  | case2 s c seen hp hP e he =>
    have hyields := yields_consume (h.tail (step_of_peek hp))
    rw [he] at hyields
    exact hyields.of_error
  | case3 s c seen hp hP d rest hd ih =>
    have hsteps : Steps s rest := .tail (.single (step_of_peek hp)) (.consume hd)
    exact (ih (h.trans hsteps)).mono fun next hnext => hsteps.trans hnext
  | case4 s c seen hp hP => exact .done (.single (step_of_peek hp))

lemma yields_lexeme (h : (ofString text).Steps s) :
    Yields text (fun _ => True) s.lexeme := by
  obtain ⟨-, begun, front, htracks⟩ := Steps.tracks h
  obtain ⟨word, rfl⟩ := htracks.isPrefix
  rw [htracks.lexeme]
  exact .done trivial

lemma yields_makeToken (h : (ofString text).Steps s) (kind : Token.Kind) :
    Yields text (fun _ => True) (s.makeToken kind) :=
  (yields_lexeme h).map fun _ _ => trivial

lemma yields_finish (h : (ofString text).Steps s) (c : Char) :
    Yields text (fun r => Steps s r.2) (s.finish c) := by
  unfold finish
  split
  · exact (yields_makeToken h _).bind fun t _ => .done .refl
  · split_ifs
    · refine (yields_consumeWhile h _).bind fun next hnext => ?_
      exact (yields_makeToken (h.trans hnext) _).bind fun t _ => .done hnext
    · refine (yields_consumeWhile h _).bind fun next hnext => ?_
      refine (yields_lexeme (h.trans hnext)).bind fun name _ => ?_
      exact (yields_makeToken (h.trans hnext) _).bind fun t _ => .done hnext
    · exact .done .refl

lemma steps_begin {P : Char → Bool} (h : (ofString text).Steps s)
    (hs : s.consumeWhile P = .ok next) : Steps s next.begin := by
  have hyields := yields_consumeWhile h P
  rw [hs] at hyields
  exact hyields.of_ok.tail (.begin next)

lemma yields_scan (h : (ofString text).Steps s) : Yields text (fun r => Steps s r.2) s.scan := by
  fun_induction Scanner.scan s with
  | case1 s e hs =>
    have hyields := yields_consumeWhile h isSpace
    rw [hs] at hyields
    exact hyields.of_error
  | case2 s skipped hs e hc =>
    have hyields := yields_consume (h.trans (steps_begin h hs))
    rw [hc] at hyields
    exact hyields.of_error
  | case3 s skipped hs last hc =>
    have hlast : Steps s last := (steps_begin h hs).tail (.consume hc)
    exact (yields_makeToken (h.trans hlast) _).map fun t _ => hlast
  | case4 s skipped hs rest hc ih =>
    have hrest : Steps s rest := (steps_begin h hs).tail (.consume hc)
    exact (ih (h.trans hrest)).mono fun r hr => hrest.trans hr
  | case5 s skipped hs c rest hc hne =>
    have hrest : Steps s rest := (steps_begin h hs).tail (.consume hc)
    exact (yields_finish (h.trans hrest) c).mono fun r hr => hrest.trans hr

/-- Wherever its steps have taken the scanner of a text, indices and places count what was consumed
before the token and up to now. Only in a text of 2^31 - 1 characters or more may scanning on break
off. -/
theorem steps_track_text (text : String) (s : Scanner) (h : (ofString text).Steps s) :
    (∃ begun word, text.toList = begun ++ word ++ s.peeked.toList ++ s.chars ∧
      s.startIndex = (String.ofList begun).utf8ByteSize ∧
      s.index = (String.ofList (begun ++ word)).utf8ByteSize ∧
      s.startPosition = .behind begun ∧ s.position = .behind (begun ++ word) ∧
      slice text s.startIndex s.index = .ok (.ofList word)) ∧
    s.input = text ∧ s.startIndex ≤ s.index ∧ String.Pos.Raw.IsValid text ⟨s.startIndex⟩ ∧
    String.Pos.Raw.IsValid text ⟨s.index⟩ ∧
    Yields text (fun r => Steps s r.2) s.consume ∧
    (∀ P, Yields text (fun next => Steps s next) (s.consumeWhile P)) ∧
    Yields text (fun r => Steps s r.2) s.scan := by
  obtain ⟨hinput, begun, front, htracks⟩ := Steps.tracks h
  obtain ⟨word, rfl⟩ := htracks.isPrefix
  have htext : text.toList = begun ++ word ++ s.remaining := hinput ▸ htracks.input
  have hslice := slice_eq begun word s.remaining htext htracks.startIndex htracks.index
  rw [String.ofList_toList] at hslice
  obtain ⟨hle, hstart, hstop⟩ := valid_of_slice hslice
  rw [remaining, ← List.append_assoc] at htext
  exact ⟨⟨begun, word, htext, htracks.startIndex, htracks.index, htracks.startPosition,
    htracks.position, hslice⟩, hinput, hle, hstart, hstop, yields_consume h,
    yields_consumeWhile h, yields_scan h⟩

theorem steps_track_text_wide :
    let text := "é\n1x"
    let s : Scanner := ⟨text, [], some 'x', 3, 4, ⟨2, 1⟩, ⟨2, 2⟩⟩
    (ofString text).Steps s ∧
      (∃ begun word, text.toList = begun ++ word ++ ['x'] ++ [] ∧
        3 = (String.ofList begun).utf8ByteSize ∧ 4 = (String.ofList (begun ++ word)).utf8ByteSize ∧
        (⟨2, 1⟩ : Position) = .behind begun ∧ (⟨2, 2⟩ : Position) = .behind (begun ++ word) ∧
        slice text 3 4 = .ok (.ofList word)) ∧
      ∃ r, s.scan = .ok r ∧ Steps s r.2 := by
  intro text s
  have hsteps : (ofString text).Steps s := by
    have hwide : (ofString text).consume = .ok (some 'é',
        ⟨text, ['\n', '1', 'x'], none, 0, 2, .start, ⟨1, 2⟩⟩) := by cbv
    have hline : Step ⟨text, ['\n', '1', 'x'], none, 0, 2, .start, ⟨1, 2⟩⟩
        ⟨text, ['1', 'x'], none, 0, 3, .start, ⟨2, 1⟩⟩ := .consume rfl
    have hdigit : Step ⟨text, ['1', 'x'], none, 3, 3, ⟨2, 1⟩, ⟨2, 1⟩⟩
        ⟨text, ['x'], none, 3, 4, ⟨2, 1⟩, ⟨2, 2⟩⟩ := .consume rfl
    exact ((((ReflTransGen.single (.consume hwide)).tail hline).tail (.begin _)).tail hdigit).tail
      (.peek _)
  obtain ⟨htext, -, -, -, -, -, -, hscan⟩ := steps_track_text text s hsteps
  refine ⟨hsteps, htext, ?_⟩
  generalize hx : s.scan = x at hscan
  cases hscan with
  | done hr => exact ⟨_, rfl, hr⟩
  | overflow hlength => exact absurd hlength (by decide)

end Scanner

end Varlet
