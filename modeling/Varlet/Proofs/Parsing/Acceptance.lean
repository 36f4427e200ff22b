import Varlet.Proofs.Parsing.Completeness
import Varlet.Session

namespace Varlet

namespace TokenStream

def finish (s : TokenStream) : TokenStream where
  pending := []
  final := s.final
  pending_kind t ht := by simp at ht
  final_kind := s.final_kind

lemma reads_finish (s : TokenStream) : s.Reads s.pending s.finish :=
  ⟨(List.append_nil _).symm, rfl⟩

lemma pending_ofTokens {ts : List Token} {final : Token} (hts : ∀ t ∈ ts, t.kind ≠ .eof)
    (hf : final.kind = .eof) : (ofTokens (ts ++ [final])).pending = ts := by
  change List.takeWhile _ _ = _
  rw [List.takeWhile_append_of_pos (by simpa using hts)]
  simp [hf]

lemma final_ofTokens {ts : List Token} {final : Token} (hts : ∀ t ∈ ts, t.kind ≠ .eof)
    (hf : final.kind = .eof) : (ofTokens (ts ++ [final])).final = final := by
  have hn : ts.find? (fun t => t.kind = .eof) = none := by simpa using hts
  simp [ofTokens, List.find?_append, hn, hf]

end TokenStream

namespace Parser

open Grammar

variable {s : TokenStream} {n c : ℕ} {body : List Statement}

lemma programWithin_accepts (h : DerivesProgram s.pending body c) (hn : c ≤ n) :
    programWithin n s = .ok ⟨body⟩ s.finish := by
  rw [programWithin, bind_ok (statements_accepts h hn s.reads_finish rfl [])]
  rfl

lemma derives_of_programWithin {p : Program} {r : TokenStream} (h : programWithin n s = .ok p r) :
    ∃ c ≤ n, DerivesProgram s.pending p.body c := by
  obtain ⟨ts, hs, hr, hd⟩ := (programWithin_sound n s).of_ok h
  have hp : s.pending = ts := by rw [hs.1, hr, List.append_nil]
  rwa [hp]

end Parser

open Grammar

namespace Program

variable {ts : List Token} {p : Program} {n : ℕ}

lemma derives_of_ofTokens (h : ofTokens ts = .ok p) :
    ∃ n ≤ maxNesting, DerivesProgram (ts.takeWhile fun t => t.kind ≠ .eof) p.body n := by
  unfold ofTokens at h
  split at h
  · next hp =>
    cases h
    exact Parser.derives_of_programWithin hp
  · cases h

lemma ofTokens_of_derives (hn : n ≤ maxNesting)
    (h : DerivesProgram (ts.takeWhile fun t => t.kind ≠ .eof) p.body n) :
    ofTokens ts = .ok p := by
  have hp := Parser.programWithin_accepts (s := .ofTokens ts) h hn
  rw [ofTokens, Parser.program, hp]

end Program

lemma parse_eq_ok_iff {source : String} {p : Program} :
    parse source = .ok p ↔ ∃ ts, tokenize source = .ok ts ∧ Program.ofTokens ts = .ok p := by
  cases htokens : tokenize source with
  | error e => simp [parse, htokens, Except.mapError, bind, Except.bind]
  | ok ts =>
    cases hp : Program.ofTokens ts <;>
      simp [parse, htokens, hp, Except.mapError, bind, Except.bind]

theorem Program.ofTokens_eq_ok_iff (ts : List Token) (p : Program) :
    Program.ofTokens ts = .ok p ↔
      ∃ n ≤ maxNesting, DerivesProgram (ts.takeWhile fun t => t.kind ≠ .eof) p.body n := by
  constructor
  · exact derives_of_ofTokens
  · rintro ⟨n, hn, h⟩
    exact ofTokens_of_derives hn h

end Varlet
