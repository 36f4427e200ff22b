import Varlet.Proofs.Lexing.Trimming
import Varlet.Proofs.Running.Input
import Varlet.Proofs.Running.Joining

namespace Varlet

open Grammar

lemma parse_trim {line : String} {p : Program} (h : parse line = .ok p) :
    parse (Text.trim line) = .ok p := by
  obtain ⟨words, hlexes, n, hn, hd⟩ := lexes_of_parse h
  refine parse_of_lexes ?_ hn hd
  rw [Text.trim, String.toList_ofList]
  exact hlexes.trimBy

lemma parse_empty : parse "" = .ok ⟨[]⟩ := parse_of_lexes .nil (Nat.zero_le _) .nil

abbrev ParseEach (lines : List String) (ps : List Program) : Prop :=
  List.Forall₂ (fun line p => parse line = .ok p) lines ps

lemma parse_intercalate {lines : List String} {ps : List Program} (h : ParseEach lines ps) :
    parse ("\n".intercalate lines) = .ok ⟨ps.flatMap Program.body⟩ := by
  induction h with
  | nil => exact parse_empty
  | @cons line p lines ps hp hrest ih =>
    cases hrest with
    | nil => simpa using hp
    | cons _ _ =>
      rw [String.intercalate_cons_of_ne_nil (by simp), List.flatMap_cons]
      exact parse_join hp ih

namespace Session

variable {s : Session} {p q : Program} {v w : Value} {e : Error}

lemma evaluate_echo (s : Session) (p : Program) (echo echo' : Echo) :
    (s.evaluate p echo).result = (s.evaluate p echo').result ∧
      (s.evaluate p echo).session = (s.evaluate p echo').session := by
  obtain ⟨hresult, hchain⟩ := runStatements_echo echo echo' .null [] [] p.body s.chain
  exact ⟨congrArg (Except.mapError Error.runtime) hresult, congrArg Session.mk hchain⟩

lemma evaluate_nil (h : p.body = []) (s : Session) (echo : Echo) :
    s.evaluate p echo = ⟨.ok .null, [], s⟩ := by
  simp [evaluate, Program.run, h, runStatements, Except.mapError]

lemma evaluate_append_result (s : Session) (p q : Program) :
    (s.evaluate ⟨p.body ++ q.body⟩ .statements).result =
      (s.evaluate p .suppressed).result.bind fun w =>
        if q.body = [] then .ok w
        else ((s.evaluate p .suppressed).session.evaluate q .statements).result := by
  obtain ⟨hresult, hsession⟩ := s.evaluate_echo p .statements .suppressed
  rw [← hresult, ← hsession]
  by_cases hq : q.body = []
  · simp only [hq, List.append_nil, if_true]
    cases (s.evaluate p .statements).result <;> rfl
  · rw [evaluate_append hq, Answer.andThen]
    cases hr : (s.evaluate p .statements).result with
    | error e => exact hr
    | ok w => simp only [if_neg hq, Except.bind]

lemma evaluate_append_session (h : (s.evaluate p .suppressed).result = .ok w) (q : Program) :
    (s.evaluate ⟨p.body ++ q.body⟩ .statements).session =
      ((s.evaluate p .suppressed).session.evaluate q .statements).session := by
  obtain ⟨hresult, hsession⟩ := s.evaluate_echo p .statements .suppressed
  by_cases hq : q.body = []
  · rw [hq, List.append_nil, evaluate_nil hq]
    exact hsession
  · rw [evaluate_append hq, Answer.andThen, hresult, h, hsession]

lemma exists_of_append_ok (h : (s.evaluate ⟨p.body ++ q.body⟩ .statements).result = .ok v) :
    ∃ w v', (s.evaluate p .suppressed).result = .ok w ∧
      ((s.evaluate p .suppressed).session.evaluate q .statements).result = .ok v' ∧
      v = if q.body = [] then w else v' := by
  rw [evaluate_append_result] at h
  cases hp : (s.evaluate p .suppressed).result with
  | error e =>
    rw [hp] at h
    cases h
  | ok w =>
    rw [hp, Except.bind] at h
    by_cases hq : q.body = []
    · rw [if_pos hq] at h
      exact ⟨w, .null, rfl, by rw [evaluate_nil hq], by rw [if_pos hq, Except.ok.inj h]⟩
    · rw [if_neg hq] at h
      exact ⟨w, v, rfl, h, by rw [if_neg hq]⟩

lemma exists_of_append_error (h : (s.evaluate ⟨p.body ++ q.body⟩ .statements).result = .error e) :
    (s.evaluate p .suppressed).result = .error e ∨
      ∃ w, (s.evaluate p .suppressed).result = .ok w ∧
        ((s.evaluate p .suppressed).session.evaluate q .statements).result = .error e := by
  rw [evaluate_append_result] at h
  cases hp : (s.evaluate p .suppressed).result with
  | error e' =>
    rw [hp] at h
    exact .inl h
  | ok w =>
    rw [hp, Except.bind] at h
    split_ifs at h
    exact .inr ⟨w, rfl, h⟩

end Session

namespace Shell

open Session

def Reply.Prints (r : Reply) (v : Value) : Prop :=
  ∃ p a, r = .answered p a ∧ a.result = .ok v ∧
    ∃ shown : String, r.out = shown ++ "Result: " ++ v.display ++ "\n\n-----\n\n"

def Completed (line : String) (r : Reply) : Prop :=
  Text.trim line = "" ∧ r = .skipped ∨ ∃ v, r.Prints v

def sessionAfter (s : Session) (rs : List Reply) : Session :=
  rs.foldl (fun s r => r.session s) s

variable {s : Session} {line : String} {lines : List String} {p q : Program} {ps : List Program}
variable {v : Value} {e : Error} {r : Reply}

lemma prints_answered {a : Answer} (h : a.result = .ok v) : (Reply.answered p a).Prints v := by
  refine ⟨p, a, rfl, h, "\nTree:\n" ++ p.outline.pretty 0 ++ "\n\n", ?_⟩
  simp only [Reply.out, h, String.append_assoc]

lemma Completed.err_eq (h : Completed line r) : r.err = "" := by
  obtain ⟨-, rfl⟩ | ⟨v, p, a, rfl, ha, -⟩ := h
  · rfl
  · simp [Reply.err, ha]

lemma trim_dropReturn (line : String) : Text.trim (dropReturn line) = Text.trim line := by
  rw [dropReturn]
  split_ifs with hr
  · obtain ⟨cs, hcs⟩ := List.getLast?_eq_some_iff.mp hr
    rw [Text.trim, Text.trim, String.toList_ofList, hcs, List.dropLast_concat,
      Text.trimBy_concat (by decide)]
  · rfl

lemma replies_dropReturn (s : Session) (lines : List String) :
    replies s (lines.map fun line => some (dropReturn line)) = replies s (lines.map some) := by
  induction lines generalizing s with
  | nil => rfl
  | cons line lines ih =>
    have hreply : reply s (some (dropReturn line)) = reply s (some line) := by
      rw [reply, reply, trim_dropReturn]
    simp only [List.map_cons, replies, step, hreply]
    split
    · rfl
    · rw [ih]

lemma replies_of_not_ends {r : Reply} (h : reply s (some line) = r) (hr : ¬ r.ends)
    (rest : List (Option String)) :
    replies s (some line :: rest) = r :: replies (r.session s) rest := by
  simp [replies, step, h, hr]

lemma exists_replies_cons (hp : parse line = .ok p) (hexit : Text.trim line ≠ "exit") (s : Session)
    (rest : List (Option String)) :
    ∃ r, replies s (some line :: rest) = r :: replies (s.evaluate p .suppressed).session rest ∧
      r.session s = (s.evaluate p .suppressed).session ∧
      (Text.trim line = "" ∧ p.body = [] ∧ r = .skipped ∨
        r = .answered p (s.evaluate p .suppressed)) := by
  have htrim := parse_trim hp
  by_cases hblank : Text.trim line = ""
  · have hbody : p.body = [] := by
      rw [hblank, parse_empty] at htrim
      rw [← Except.ok.inj htrim]
    have hreply : reply s (some line) = .skipped := by simp [reply, hblank]
    have hsession : (s.evaluate p .suppressed).session = s := by rw [evaluate_nil hbody]
    refine ⟨.skipped, ?_, hsession.symm, .inl ⟨hblank, hbody, rfl⟩⟩
    rw [hsession]
    exact replies_of_not_ends hreply (by simp [Reply.ends]) rest
  · have hreply : reply s (some line) = .answered p (s.evaluate p .suppressed) := by
      simp [reply, hblank, hexit, htrim]
    exact ⟨_, replies_of_not_ends hreply (by simp [Reply.ends]) rest, rfl, .inr rfl⟩

lemma completed_of_ok {a : Answer} (h : a.result = .ok v)
    (hr : Text.trim line = "" ∧ q.body = [] ∧ r = .skipped ∨ r = .answered p a) :
    Completed line r := by
  obtain ⟨hblank, -, rfl⟩ | rfl := hr
  · exact .inl ⟨hblank, rfl⟩
  · exact .inr ⟨v, prints_answered h⟩

lemma replies_of_ok (h : ParseEach lines ps) (hexit : ∀ line ∈ lines, Text.trim line ≠ "exit")
    (hv : (s.evaluate ⟨ps.flatMap Program.body⟩ .statements).result = .ok v) :
    List.Forall₂ Completed lines (replies s (lines.map some)) ∧
      sessionAfter s (replies s (lines.map some)) =
        (s.evaluate ⟨ps.flatMap Program.body⟩ .statements).session := by
  induction h generalizing s v with
  | nil => exact ⟨.nil, rfl⟩
  | @cons line p lines ps hp _ ih =>
    rw [List.forall_mem_cons] at hexit
    obtain ⟨r, hreplies, hsession, hr⟩ := exists_replies_cons hp hexit.1 s (lines.map some)
    rw [List.flatMap_cons] at hv ⊢
    obtain ⟨w, v', hw, hv', -⟩ := exists_of_append_ok (q := ⟨ps.flatMap Program.body⟩) hv
    obtain ⟨hcompleted, hafter⟩ := ih hexit.2 hv'
    rw [List.map_cons, hreplies, evaluate_append_session hw ⟨ps.flatMap Program.body⟩, ← hafter]
    refine ⟨.cons (completed_of_ok hw hr) hcompleted, ?_⟩
    rw [sessionAfter, List.foldl_cons, hsession, sessionAfter]

lemma replies_of_error (h : ParseEach lines ps) (hexit : ∀ line ∈ lines, Text.trim line ≠ "exit")
    (he : (s.evaluate ⟨ps.flatMap Program.body⟩ .statements).result = .error e) :
    ∃ (before after : List String) (line : String) (done rest : List Reply) (q : Program)
      (b : Answer), lines = before ++ line :: after ∧
      replies s (lines.map some) = done ++ .answered q b :: rest ∧
      List.Forall₂ Completed before done ∧ b.result = .error e := by
  induction h generalizing s with
  | nil => cases he
  | @cons line p lines ps hp _ ih =>
    rw [List.forall_mem_cons] at hexit
    obtain ⟨r, hreplies, hsession, hr⟩ := exists_replies_cons hp hexit.1 s (lines.map some)
    rw [List.flatMap_cons] at he
    rw [List.map_cons, hreplies]
    obtain hfail | ⟨w, hw, hfail⟩ := exists_of_append_error (q := ⟨ps.flatMap Program.body⟩) he
    · obtain ⟨-, hbody, -⟩ | rfl := hr
      · rw [evaluate_nil hbody] at hfail
        cases hfail
      · exact ⟨[], lines, line, [], _, p, _, rfl, rfl, .nil, hfail⟩
    · obtain ⟨before, after, line', done, rest, q, b, rfl, hdone, hcompleted, hb⟩ :=
        ih hexit.2 hfail
      refine ⟨line :: before, after, line', r :: done, rest, q, b, rfl, ?_,
        .cons (completed_of_ok hw hr) hcompleted, hb⟩
      rw [hdone, List.cons_append]

lemma mem_of_parse (h : ParseEach lines ps) (hline : line ∈ lines) (hq : parse line = .ok q) :
    q ∈ ps := by
  induction h with
  | nil => cases hline
  | cons hp _ ih =>
    rcases List.mem_cons.mp hline with rfl | hline
    · obtain rfl := Except.ok.inj (hq.symm.trans hp)
      exact List.mem_cons_self
    · exact List.mem_cons_of_mem _ (ih hline)

lemma flatMap_body_eq_nil (h : ParseEach lines ps)
    (hlines : ∀ line ∈ lines, parse line = .ok ⟨[]⟩) : ps.flatMap Program.body = [] := by
  induction h with
  | nil => rfl
  | cons hp _ ih =>
    rw [List.forall_mem_cons] at hlines
    obtain rfl := Except.ok.inj (hp.symm.trans hlines.1)
    exact ih hlines.2

lemma replies_last {before after : List String} (h : ParseEach (before ++ line :: after) ps)
    (hexit : ∀ other ∈ before ++ line :: after, Text.trim other ≠ "exit") (hq : parse line = .ok q)
    (hbody : q.body ≠ []) (hafter : ∀ other ∈ after, parse other = .ok ⟨[]⟩)
    (hv : (s.evaluate ⟨ps.flatMap Program.body⟩ .statements).result = .ok v) :
    ∃ (done rest : List Reply) (r : Reply),
      replies s ((before ++ line :: after).map some) = done ++ r :: rest ∧
      done.length = before.length ∧ r.Prints v := by
  induction before generalizing s ps with
  | nil =>
    obtain ⟨p, ps, hp, hps, rfl⟩ := List.forall₂_cons_left_iff.mp h
    obtain rfl := Except.ok.inj (hq.symm.trans hp)
    rw [List.flatMap_cons] at hv
    obtain ⟨w, -, hw, -, rfl⟩ := exists_of_append_ok (q := ⟨ps.flatMap Program.body⟩) hv
    rw [if_pos (flatMap_body_eq_nil hps hafter)]
    obtain ⟨r, hreplies, -, hr⟩ :=
      exists_replies_cons hq (hexit line (by simp)) s (after.map some)
    refine ⟨[], _, r, hreplies, rfl, ?_⟩
    obtain ⟨-, hnil, -⟩ | rfl := hr
    · exact absurd hnil hbody
    · exact prints_answered hw
  | cons first before ih =>
    rw [List.cons_append] at h hexit ⊢
    obtain ⟨p, ps, hp, hps, rfl⟩ := List.forall₂_cons_left_iff.mp h
    rw [List.forall_mem_cons] at hexit
    have hne : ps.flatMap Program.body ≠ [] := by
      rw [Ne, List.flatMap_eq_nil_iff]
      exact fun hnil => hbody (hnil q (mem_of_parse hps (by simp) hq))
    rw [List.flatMap_cons] at hv
    obtain ⟨w, v', -, hv', heq⟩ := exists_of_append_ok (q := ⟨ps.flatMap Program.body⟩) hv
    obtain rfl : v = v' := heq.trans (if_neg hne)
    obtain ⟨r₀, hreplies, -, -⟩ :=
      exists_replies_cons hp hexit.1 s ((before ++ line :: after).map some)
    obtain ⟨done, rest, r, hdone, hlen, hr⟩ := ih hps hexit.2 hv'
    refine ⟨r₀ :: done, rest, r, ?_, congrArg (· + 1) hlen, hr⟩
    rw [List.map_cons, hreplies, hdone, List.cons_append]

lemma stderr_of_completed {before : List String} {done : List Reply}
    (h : List.Forall₂ Completed before done) : String.join (done.map Reply.err) = "" := by
  induction h with
  | nil => rfl
  | cons hr _ ih => simp [hr.err_eq, ih]

end Shell

/-- Lines that are programs of their own and do not end the shell, as a script and in the shell. The
two end with the same session and result, or the error of the script is the first one that the shell
prints. -/
theorem Shell.agrees_with_script (lines : List String) (path : String) (showTree : Bool)
    (hbreak : ∀ line ∈ lines, '\n' ∉ line.toList) (hparse : ∀ line ∈ lines, ∃ p, parse line = .ok p)
    (hexit : ∀ line ∈ lines, Text.trim line ≠ "exit") :
    let source := "\n".intercalate lines
    let input := String.join (lines.map fun line => line ++ "\n")
    let rs := replies .start (linesOfBytes input.toUTF8)
    let shell := Shell.run (linesOfBytes input.toUTF8)
    let script := Script.run path showTree (Script.decode source.toUTF8)
    ∃ p a, Script.report (Script.decode source.toUTF8) = .finished p a ∧
      linesOfBytes input.toUTF8 = (lines.map fun line => some (dropReturn line)) ∧
      rs = replies .start (lines.map some) ∧
      (∀ v, a.result = .ok v →
        (∃ shown : String, script = ⟨0, shown ++ "\nResult: " ++ v.display ++ "\n", ""⟩) ∧
        shell.stderr = "" ∧ List.Forall₂ Completed lines rs ∧ sessionAfter .start rs = a.session ∧
        ∀ (before after : List String) (line : String) (q : Program),
          lines = before ++ line :: after → parse line = .ok q → q.body ≠ [] →
          (∀ other ∈ after, parse other = .ok ⟨[]⟩) →
          ∃ (done rest : List Reply) (r : Reply), rs = done ++ r :: rest ∧
            done.length = before.length ∧ r.Prints v) ∧
      ∀ e, a.result = .error e →
        (∃ shown : String, script = ⟨1, shown, "[" ++ path ++ "] " ++ e.message ++ "\n"⟩) ∧
        ∃ (before after : List String) (line : String) (done rest : List Reply) (q : Program)
          (b : Session.Answer), lines = before ++ line :: after ∧
          rs = done ++ .answered q b :: rest ∧
          List.Forall₂ Completed before done ∧ b.result = .error e ∧
          ∃ more : String, shell.stderr = e.message ++ "\n" ++ more := by
  intro source input rs shell script
  have : Nonempty Program := ⟨⟨[]⟩⟩
  choose! program hprogram using hparse
  have hps : ParseEach lines (lines.map program) :=
    List.forall₂_map_right_iff.mpr (List.forall₂_same.mpr hprogram)
  generalize lines.map program = ps at hps
  have hinput : linesOfBytes input.toUTF8 = lines.map fun line => some (dropReturn line) :=
    linesOfBytes_join hbreak
  have hreplies : rs = replies .start (lines.map some) := by
    simp only [rs, hinput, replies_dropReturn]
  have hstderr : shell.stderr = String.join (rs.map Reply.err) := rfl
  have hreport : Script.report (Script.decode source.toUTF8) =
      .finished ⟨ps.flatMap Program.body⟩
        (Session.start.evaluate ⟨ps.flatMap Program.body⟩ .statements) := by
    rw [Script.decode_toUTF8, Script.report, parse_intercalate hps]
  refine ⟨_, _, hreport, hinput, hreplies, ?_⟩
  rw [hreplies] at hstderr ⊢
  refine ⟨fun v hv => ?_, fun e he => ?_⟩
  · obtain ⟨hcompleted, hsession⟩ := replies_of_ok hps hexit hv
    refine ⟨?_, ?_, hcompleted, hsession, ?_⟩
    · simp only [script, Script.run, hreport, Script.Report.outcome, hv]
      exact ⟨_, rfl⟩
    · rw [hstderr, stderr_of_completed hcompleted]
    · rintro before after line q rfl hq hbody hafter
      exact replies_last hps hexit hq hbody hafter hv
  · obtain ⟨before, after, line, done, rest, q, b, hlines, hrs, hcompleted, hb⟩ :=
      replies_of_error hps hexit he
    refine ⟨?_, before, after, line, done, rest, q, b, hlines, hrs, hcompleted, hb, ?_⟩
    · simp only [script, Script.run, hreport, Script.Report.outcome, he]
      exact ⟨_, rfl⟩
    · refine ⟨String.join (rest.map Reply.err), ?_⟩
      rw [hstderr, hrs]
      simp [stderr_of_completed hcompleted, Reply.err, hb]

theorem Shell.agrees_with_script_blank :
    let lines := ["\tvar mut x = true // y\u00a0", "", "x = null; x", ";\r"]
    let input := String.join (lines.map fun line => line ++ "\n")
    (∀ line ∈ lines, '\n' ∉ line.toList) ∧ (∀ line ∈ lines, ∃ p, parse line = .ok p) ∧
      (∀ line ∈ lines, Text.trim line ≠ "exit") ∧
      (Shell.run (linesOfBytes input.toUTF8)).stderr = "" ∧
      ∃ (done rest : List Reply) (r : Reply),
        replies .start (linesOfBytes input.toUTF8) = done ++ r :: rest ∧ done.length = 2 ∧
          r.Prints .null := by
  intro lines input
  have hbreak : ∀ line ∈ lines, '\n' ∉ line.toList := by decide
  have hexit : ∀ line ∈ lines, Text.trim line ≠ "exit" := by decide
  have hfirst : parse "\tvar mut x = true // y\u00a0" =
      .ok ⟨[.declaration true "x" (some (.identifier "true"))]⟩ := by cbv
  have hthird : parse "x = null; x" = .ok ⟨[.expression (.assignment (.identifier "x") .null),
      .expression (.identifier "x")]⟩ := by cbv
  have hlast : parse ";\r" = .ok ⟨[]⟩ := by cbv
  have hparse : ∀ line ∈ lines, ∃ p, parse line = .ok p := by
    simp [lines, hfirst, hthird, hlast, parse_empty]
  obtain ⟨p, a, hreport, -, -, hok, -⟩ := agrees_with_script lines "x" false hbreak hparse hexit
  have hsource : parse ("\n".intercalate lines) = .ok ⟨[.declaration true "x"
      (some (.identifier "true")), .expression (.assignment (.identifier "x") .null),
      .expression (.identifier "x")]⟩ :=
    parse_intercalate (.cons hfirst (.cons parse_empty (.cons hthird (.cons hlast .nil))))
  rw [Script.decode_toUTF8, Script.report, hsource] at hreport
  obtain ⟨-, rfl⟩ := Script.Report.finished.inj hreport
  obtain ⟨-, hstderr, -, -, hresult⟩ := hok .null (by cbv)
  exact ⟨hbreak, hparse, hexit, hstderr,
    hresult ["\tvar mut x = true // y\u00a0", ""] [";\r"] _ _ rfl hthird (by simp) (by simp [hlast])⟩

end Varlet
