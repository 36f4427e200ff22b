import Varlet.Proofs.Lexing.Comments
import Varlet.Proofs.Parsing.Spelling
import Varlet.Proofs.Running.Statements

namespace Varlet

open Grammar

section

variable {a b : String} {p q : Program}

lemma free_of_parse (h : parse a = .ok p) : Comment.Free (Comment.blankAll a.toList) := by
  obtain ⟨words, hlexes, n, -, hd⟩ := lexes_of_parse h
  exact hlexes.free hd.isChain

lemma parse_join (ha : parse a = .ok p) (hb : parse b = .ok q) :
    parse (a ++ "\n" ++ b) = .ok ⟨p.body ++ q.body⟩ := by
  obtain ⟨words, hlexes, n, hn, hd⟩ := lexes_of_parse ha
  obtain ⟨others, hlexes', m, hm, hd'⟩ := lexes_of_parse hb
  have htext : (a ++ "\n" ++ b).toList = a.toList ++ '\n' :: b.toList := by simp
  have hjoined : DerivesProgram (bare (words ++ others)) (p.body ++ q.body) (max n m) := by
    rw [bare_append]
    exact hd.append hd'
  refine parse_of_lexes ?_ (max_le hn hm) hjoined
  rw [htext, Comment.blankAll_append (free_of_parse ha)]
  exact hlexes.append rfl hlexes'

end

namespace Session

def Answer.andThen (a : Answer) (next : Session → Answer) : Answer :=
  match a.result with
  | .ok _ => { next a.session with emitted := a.emitted ++ (next a.session).emitted }
  | .error _ => a

lemma run_of_parse {source : String} {p : Program} (h : parse source = .ok p) (s : Session)
    (echo : Echo) : s.run source echo = s.evaluate p echo := by
  rw [run, h]

lemma evaluate_append {p q : Program} (hq : q.body ≠ []) (s : Session) (echo : Echo) :
    s.evaluate ⟨p.body ++ q.body⟩ echo =
      (s.evaluate p echo).andThen fun t => t.evaluate q echo := by
  simp only [evaluate, Program.run, runStatements_append, Run.andThen, Answer.andThen]
  cases hr : (runStatements echo .null [] p.body s.chain).result with
  | error e => simp [hr, Except.mapError]
  | ok v =>
    simp only [runStatements_last hq echo v .null]
    rfl

theorem run_join (s : Session) (echo : Echo) (a b : String) (p q : Program)
    (ha : parse a = .ok p) (hb : parse b = .ok q) (hq : q.body ≠ []) :
    s.run (a ++ "\n" ++ b) echo = (s.run a echo).andThen fun t => t.run b echo := by
  have hsecond : (fun t : Session => t.run b echo) = fun t => t.evaluate q echo := by
    funext t
    exact t.run_of_parse hb echo
  rw [run_of_parse (parse_join ha hb), run_of_parse ha, hsecond, evaluate_append hq]

theorem run_join_comments :
    start.run ("var mut x = null // y /*" ++ "\n" ++ "x = true /* x */ {y: x}") .statements =
      (start.run "var mut x = null // y /*" .statements).andThen fun t =>
        t.run "x = true /* x */ {y: x}" .statements := by
  have ha : parse "var mut x = null // y /*" = .ok ⟨[.declaration true "x" (some .null)]⟩ := by
    cbv
  have hb : parse "x = true /* x */ {y: x}" = .ok ⟨[.expression (.assignment (.identifier "x")
      (.identifier "true")), .expression (.object [⟨"y", some (.identifier "x")⟩])]⟩ := by
    cbv
  exact run_join start .statements _ _ _ _ ha hb (by simp)

end Session

end Varlet
