import Varlet.Proofs.Running.Statements
import Varlet.Scope.Forest

namespace Varlet

inductive Completes : Chain → List (Statement × Value) → Chain → Prop
  | nil {c} : Completes c [] c
  | cons {c d c' v done} {s : Statement} : s.evaluate c = .ok v d → Completes d done c' →
      Completes c ((s, v) :: done) c'

inductive Shown : List (Statement × Value) → List Value → Prop
  | nil : Shown [] []
  | expression {e v done vs} : (∀ target value, e ≠ .assignment target value) → Shown done vs →
      Shown ((.expression e, v) :: done) (v :: vs)
  | assignment {target value v done vs} : Shown done vs →
      Shown ((.expression (.assignment target value), v) :: done) vs
  | declaration {mutable name initializer v done vs} : Shown done vs →
      Shown ((.declaration mutable name initializer, v) :: done) vs

/-- How a run goes on behind the statements that completed: there are no more, and the last value is
the result, or the next one fails. `last` is the value of the statement before them all. -/
inductive Run.Concludes (r : Run) (last : Value) (ss : List Statement)
    (done : List (Statement × Value)) (d : Chain) : Prop
  | finished : ss = done.map Prod.fst → r.result = .ok ((done.map Prod.snd).getLastD last) →
      r.chain = d → Concludes r last ss done d
  | failed {s rest e} : ss = done.map Prod.fst ++ s :: rest → s.evaluate d = .error e r.chain →
      r.result = .error e → Concludes r last ss done d

lemma Shown.cons {done : List (Statement × Value)} {vs : List Value} (h : Shown done vs)
    (s : Statement) (v : Value) :
    Shown ((s, v) :: done) ((if s.echoes then [v] else []) ++ vs) := by
  cases s with
  | declaration mutable name initializer => exact .declaration h
  | expression e =>
    cases e with
    | assignment target value => exact .assignment h
    | _ => exact .expression (by simp) h

lemma Run.Concludes.cons {r : Run} {last v : Value} {ss : List Statement}
    {done : List (Statement × Value)} {d : Chain} (h : r.Concludes v ss done d) (s : Statement) :
    r.Concludes last (s :: ss) ((s, v) :: done) d := by
  cases h with
  | finished hss hresult hchain =>
    refine .finished (congrArg (s :: ·) hss) ?_ hchain
    rw [hresult, List.map_cons, List.getLastD_cons]
  | failed hss hfail hresult => exact .failed (congrArg (s :: ·) hss) hfail hresult

lemma Run.Concludes.prepend {r : Run} {last : Value} {ss : List Statement}
    {done : List (Statement × Value)} {d : Chain} (h : r.Concludes last ss done d)
    (vs : List Value) : (r.prepend vs).Concludes last ss done d := by
  cases h with
  | finished hss hresult hchain => exact .finished hss hresult hchain
  | failed hss hfail hresult => exact .failed hss hfail hresult

lemma runStatements_of_ok {s : Statement} {c d : Chain} {v : Value} (h : s.evaluate c = .ok v d)
    (last : Value) (ss : List Statement) :
    runStatements .statements last [] (s :: ss) c =
      (runStatements .statements v [] ss d).prepend (if s.echoes then [v] else []) := by
  simp only [runStatements, h, true_and]
  rw [runStatements_emitted]
  split_ifs <;> rfl

lemma exists_completes (last : Value) (ss : List Statement) (c : Chain) :
    ∃ done d, Completes c done d ∧ Shown done (runStatements .statements last [] ss c).emitted ∧
      (runStatements .statements last [] ss c).Concludes last ss done d := by
  induction ss generalizing last c with
  | nil => exact ⟨[], c, .nil, .nil, .finished rfl rfl rfl⟩
  | cons s ss ih =>
    cases hr : s.evaluate c with
    | error e d =>
      simp only [runStatements, hr]
      exact ⟨[], c, .nil, .nil, .failed rfl hr rfl⟩
    | ok v d =>
      obtain ⟨done, d', hdone, hshown, hends⟩ := ih v d
      rw [runStatements_of_ok hr]
      exact ⟨(s, v) :: done, d', .cons hr hdone, hshown.cons s v, (hends.cons s).prepend _⟩

lemma emitted_suppressed (last : Value) (emitted : List Value) (ss : List Statement) (c : Chain) :
    (runStatements .suppressed last emitted ss c).emitted = emitted.reverse := by
  induction ss generalizing last c with
  | nil => rfl
  | cons s ss ih =>
    rw [runStatements]
    cases s.evaluate c with
    | error e d => rfl
    | ok v d => exact ih v d

lemma run_suppressed (p : Program) (c : Chain) :
    p.run .suppressed c = { p.run .statements c with emitted := [] } := by
  obtain ⟨hresult, hchain⟩ := runStatements_echo .suppressed .statements .null [] [] p.body c
  simp only [Program.run, ← hresult, ← hchain]
  exact congrArg (Run.mk _ · _) (emitted_suppressed .null [] p.body c)

/-- Whether a program's values are echoed changes neither its result nor any scope. What is echoed
are, in order, the values of expression statements other than assignments that completed. -/
theorem Program.echo_observes (p : Program) (c : Chain) :
    (p.run .suppressed c).result = (p.run .statements c).result ∧
    (p.run .suppressed c).chain = (p.run .statements c).chain ∧
    (p.run .suppressed c).emitted = [] ∧
    (∃ done d, Completes c done d ∧ Shown done (p.run .statements c).emitted ∧
      (p.run .statements c).Concludes .null p.body done d) ∧
    ∀ (f : Forest) (id : ℕ), f.run? id p .suppressed =
      (f.run? id p .statements).map fun (r, _, g) => (r, [], g) := by
  have hrun := run_suppressed p c
  refine ⟨?_, ?_, ?_, exists_completes .null p.body c, fun f id => ?_⟩
  · rw [hrun]
  · rw [hrun]
  · rw [hrun]
  · simp only [Forest.run?, run_suppressed, Option.map_map]
    rfl

end Varlet
