import Varlet.Proofs.Parsing.Acceptance
import Varlet.Proofs.Parsing.Lookahead

namespace Varlet

open Grammar

namespace TokenStream

lemma exists_reads {ts xs : List Token} (h : ∀ t ∈ ts ++ xs, t.kind ≠ .eof) :
    ∃ s r : TokenStream, s.pending = ts ++ xs ∧ r.pending = xs ∧ s.Reads ts r := by
  have hx : ∀ t ∈ xs, t.kind ≠ .eof := fun t ht => h t (List.mem_append_right _ ht)
  exact ⟨⟨ts ++ xs, .endAt .start, h, rfl⟩, ⟨xs, .endAt .start, hx, rfl⟩, rfl, rfl, rfl, rfl⟩

end TokenStream

namespace Parser

variable {s r : TokenStream} {n : ℕ} {e : ParseError} {ts : List Token}

lemma not_grammatical_of_error (hn : n ≠ 0) (h : programWithin n s = .error e r)
    (he : ∀ t, e ≠ .nestingTooDeep t) (hs : s.Reads ts r) {s' r' : TokenStream}
    (hs' : s'.Reads ts r') (hr : r'.current = r.current) : ¬ Grammatical s'.pending := by
  rintro ⟨body, c, hd⟩
  obtain ⟨us, hu, hsame⟩ := (programWithin_agrees hn (le_max_left n c) s).of_error h
  obtain rfl := hs.tokens_unique hu
  have herror := hsame.other he s' r' hs' hr
  rw [programWithin_accepts hd (le_max_right n c)] at herror
  cases herror

lemma lt_nesting_of_error {t : Token} (hn : n ≠ 0)
    (h : programWithin n s = .error (.nestingTooDeep t) r) (hs : s.Reads ts r)
    {s' r' : TokenStream} (hs' : s'.Reads ts r') {body : List Statement} {c : ℕ}
    (hd : DerivesProgram s'.pending body c) : n < c := by
  by_contra hc
  obtain ⟨us, hu, hsame⟩ := (programWithin_agrees hn le_rfl s).of_error h
  obtain rfl := hs.tokens_unique hu
  obtain ⟨t', herror⟩ := (hsame.nesting rfl).2 s' r' hs'
  rw [programWithin_accepts hd (by omega)] at herror
  cases herror

end Parser

/-- Where an error that arose at the token of index `i` points: at that token, or at the name in
front of it. -/
def ParseError.PointsAt (tokens : List Token) (i : ℕ) : ParseError → Prop
  | .unexpectedToken t _ | .nestingTooDeep t => tokens[i]? = some t
  | .missingInitializer t | .shorthandProperty t =>
    0 < i ∧ tokens[i - 1]? = some t ∧ t.kind = .identifier

lemma ParseError.pointsAt_of_reports {s r : TokenStream} {ts : List Token} {e : ParseError}
    (hs : s.Reads ts r) (h : Parser.Reports ts r e) :
    e.PointsAt (s.pending ++ [s.final]) ts.length := by
  have hcurrent : (s.pending ++ [s.final])[ts.length]? = some r.current := by
    rw [hs.1, hs.2, List.append_assoc, List.getElem?_append_right le_rfl, Nat.sub_self]
    cases hp : r.pending <;> simp [TokenStream.current, hp]
  have hlast {t : Token} (ht : ts.getLast? = some t ∧ t.kind = .identifier) :
      0 < ts.length ∧ (s.pending ++ [s.final])[ts.length - 1]? = some t ∧
        t.kind = .identifier := by
    obtain ⟨us, rfl⟩ := List.getLast?_eq_some_iff.mp ht.1
    refine ⟨by simp, ?_, ht.2⟩
    simp [hs.1]
  cases e with
  | unexpectedToken t x => exact (show t = r.current from h) ▸ hcurrent
  | nestingTooDeep t => exact (show t = r.current from h) ▸ hcurrent
  | missingInitializer t => exact hlast h
  | shorthandProperty t => exact hlast h

theorem program_error_earliest (ts : List Token) (final : Token) (hts : ∀ t ∈ ts, t.kind ≠ .eof)
    (hfinal : final.kind = .eof)
    (hnumber : ∀ t ∈ ts, t.kind = .number → (Number.read? t.text).isSome)
    (e : ParseError) (r : TokenStream)
    (h : Parser.program (.ofTokens (ts ++ [final])) = .error e r) :
    ∃ i ≤ ts.length, r.pending = ts.drop i ∧ r.final = final ∧
      e.PointsAt (ts ++ [final]) i ∧
      (∃ xs, Grammatical (ts.take i ++ xs)) ∧
      ((∀ t, e ≠ .nestingTooDeep t) →
        (i < ts.length → ∀ xs, ¬ Grammatical (ts.take (i + 1) ++ xs)) ∧
        (i = ts.length → ¬ Grammatical ts)) ∧
      (∀ t, e = .nestingTooDeep t → ∀ xs body n,
        DerivesProgram (ts.take i ++ xs) body n → maxNesting < n) := by
  have hn : maxNesting ≠ 0 := by decide
  have hpending := TokenStream.pending_ofTokens hts hfinal
  have hend := TokenStream.final_ofTokens hts hfinal
  set s := TokenStream.ofTokens (ts ++ [final])
  obtain ⟨us, hs, hstop⟩ := (Parser.programWithin_sound maxNesting s).of_error h
  have hsplit : ts = us ++ r.pending := hpending ▸ hs.1
  have htake : ts.take us.length = us := by rw [hsplit, List.take_left]
  rcases hstop with ⟨t, ht, hkind, hread⟩ | ⟨hviable, hreport⟩
  · have hsome := hnumber t (by simp [hsplit, ht]) hkind
    simp [hread] at hsome
  refine ⟨us.length, by simp [hsplit], by rw [hsplit, List.drop_left], hs.2.symm.trans hend, ?_, ?_,
    ?_, ?_⟩
  · have hp := ParseError.pointsAt_of_reports hs hreport
    rwa [hpending, hend] at hp
  · rwa [htake]
  · intro he
    constructor
    · rintro hi xs ⟨body, n, hd⟩
      obtain ⟨t, rest, hrest⟩ : ∃ t rest, r.pending = t :: rest := by
        apply List.exists_cons_of_length_pos
        rw [hsplit, List.length_append] at hi
        omega
      have hnext : ts.take (us.length + 1) ++ xs = us ++ t :: xs := by
        rw [hsplit, hrest, List.take_length_add_append]
        simp
      rw [hnext] at hd
      obtain ⟨s', r', hs', hr', hreads⟩ := TokenStream.exists_reads hd.kind_ne_eof
      have hcurrent : r'.current = r.current := by simp [TokenStream.current, hr', hrest]
      exact Parser.not_grammatical_of_error hn h he hs hreads hcurrent ⟨body, n, hs' ▸ hd⟩
    · intro _ hg
      exact Parser.not_grammatical_of_error hn h he hs hs rfl (hpending ▸ hg)
  · rintro t rfl xs body n hd
    rw [htake] at hd
    obtain ⟨s', r', hs', -, hreads⟩ := TokenStream.exists_reads hd.kind_ne_eof
    exact Parser.lt_nesting_of_error hn h hs hreads (hs' ▸ hd)

theorem program_error_earliest_separator :
    let ts := [Token.Kind.braceLeft, .identifier, .colon, .identifier, .identifier, .braceRight].map
      Parser.filler
    (∃ xs, Grammatical (ts.take 4 ++ xs)) ∧ ∀ xs, ¬ Grammatical (ts.take 5 ++ xs) := by
  intro ts
  have hrest : ∀ t ∈ ts.drop 4, t.kind ≠ .eof := by decide
  have h : Parser.program (.ofTokens (ts ++ [.endAt .start])) =
      .error (.unexpectedToken (Parser.filler .identifier) .propertySeparator)
        ⟨ts.drop 4, .endAt .start, hrest, rfl⟩ := by
    cbv
  obtain ⟨i, hi, hpending, -, -, hviable, hother, -⟩ :=
    program_error_earliest ts (.endAt .start) (by decide) rfl (by decide) _ _ h
  obtain rfl : i = 4 := by
    have hlength := congrArg List.length hpending
    have hts : ts.length = 6 := rfl
    simp only [List.length_drop, hts] at hlength hi
    omega
  exact ⟨hviable, (hother (by simp)).1 (by decide)⟩

end Varlet
