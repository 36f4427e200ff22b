import Varlet.Proofs.Scoping.History
import Varlet.Session

namespace Varlet

namespace Scope

def Fixes (s : Scope) (name : String) (v : Value) : Prop :=
  s.value? name = some v ∧ s.isConstant name

variable {s t : Scope} {name : String} {v : Value}

lemma fixes_of_declare (h : s.declare name v false = .ok t) : t.Fixes name v := by
  obtain ⟨-, rfl⟩ := eq_of_declare h
  simp [Fixes]

lemma Keeps.fixes (h : s.Keeps t) (hs : s.Fixes name v) : t.Fixes name v := by
  have hbound : s.has name := by simp [Scope.has, hs.1]
  exact ⟨(h.value name hbound hs.2).trans hs.1, (h.isConstant name hbound).trans hs.2⟩

end Scope

namespace Evaluation

variable {α β : Type} {c e : Chain} {name : String} {v w : Value}

lemma bind_eq_ok {m : Evaluation α} {k : α → Evaluation β} {b : β} (h : (m >>= k) c = .ok b e) :
    ∃ a d, m c = .ok a d ∧ k a d = .ok b e := by
  cases hm : m c with
  | error err d =>
    rw [bind_of_error hm] at h
    cases h
  | ok a d =>
    rw [bind_of_ok hm] at h
    exact ⟨a, d, rfl, h⟩

lemma declare_eq_ok {mutable : Bool} (h : declare name v mutable c = .ok w e) :
    w = v ∧ c.declare name v mutable = .ok e := by
  rw [declare] at h
  cases hc : c.declare name v mutable with
  | error err =>
    rw [hc] at h
    cases h
  | ok d =>
    rw [hc] at h
    obtain ⟨rfl, rfl⟩ := EStateM.Result.ok.inj h
    exact ⟨rfl, rfl⟩

lemma fixes_of_declare (h : declare name v false c = .ok w e) : e.inner.Fixes name w := by
  obtain ⟨rfl, hc⟩ := declare_eq_ok h
  obtain ⟨s, hs, rfl⟩ := map_eq_ok.1 hc
  exact Scope.fixes_of_declare hs

end Evaluation

lemma Statement.fixes_of_declaration {name : String} {initializer : Option Expr} {c d : Chain}
    {v : Value} (h : (Statement.declaration false name initializer).evaluate c = .ok v d) :
    d.inner.Fixes name v := by
  cases initializer with
  | none => exact Evaluation.fixes_of_declare h
  | some e =>
    obtain ⟨w, c', -, hw⟩ := Evaluation.bind_eq_ok h
    exact Evaluation.fixes_of_declare hw

namespace Forest

inductive DeclaresConstant (f : Forest) (id : ℕ) (name : String) (v : Value) (g : Forest) : Prop
  | call : f.evaluate? id (Evaluation.declare name v false) = some (.ok v, g) →
      DeclaresConstant f id name v g
  | statement {initializer} :
      f.evaluate? id (Statement.declaration false name initializer).evaluate = some (.ok v, g) →
      DeclaresConstant f id name v g

inductive Executes (id : ℕ) : List Statement → Forest → Forest → Prop
  | nil {f} : Executes id [] f f
  | failure {s : Statement} {ss f e g} : f.evaluate? id s.evaluate = some (.error e, g) →
      Executes id (s :: ss) f g
  | success {s : Statement} {ss f v g h} : f.evaluate? id s.evaluate = some (.ok v, g) →
      Executes id ss g h → Executes id (s :: ss) f h

section

variable {f g h : Forest} {id : ℕ} {name : String} {v : Value} {c d : Chain}

lemma executes_runStatements (hc : f.chain? id = some c) (echo : Echo) (last : Value)
    (emitted : List Value) (ss : List Statement) :
    Executes id ss f (f.update id (runStatements echo last emitted ss c).chain) := by
  induction ss generalizing f c last emitted with
  | nil =>
    rw [runStatements, update_chain hc]
    exact .nil
  | cons s ss ih =>
    rw [runStatements]
    cases hr : s.evaluate c with
    | error e d => exact .failure (evaluate?_of_error hc hr)
    | ok v d =>
      have hrest := ih (chain?_update hc (s.tame.of_ok hr).keeps) v
        (if echo = .statements ∧ s.echoes then v :: emitted else emitted)
      rw [update_update (runStatements_changes _ _ _ _ _).keeps] at hrest
      exact .success (evaluate?_of_ok hc hr) hrest

lemma executes_of_run? {p : Program} {echo : Echo} {r : Except RuntimeError Value}
    {emitted : List Value} (hrun : f.run? id p echo = some (r, emitted, g)) :
    Executes id p.body f g := by
  obtain ⟨c, hc, heq⟩ := Option.map_eq_some_iff.1 hrun
  obtain rfl : f.update id (p.run echo c).chain = g := congrArg (·.2.2) heq
  exact executes_runStatements hc echo .null [] p.body

lemma DeclaresConstant.exists_update (h : f.DeclaresConstant id name v g) :
    ∃ c d, f.chain? id = some c ∧ d.inner.Fixes name v ∧ g = f.update id d := by
  cases h with
  | call h =>
    obtain ⟨c, hc, hg, ⟨w, hw, ⟨rfl⟩⟩ | ⟨e, -, ⟨⟩⟩⟩ := exists_of_evaluate? h
    exact ⟨c, _, hc, Evaluation.fixes_of_declare hw, hg⟩
  | statement h =>
    obtain ⟨c, hc, hg, ⟨w, hw, ⟨rfl⟩⟩ | ⟨e, -, ⟨⟩⟩⟩ := exists_of_evaluate? h
    exact ⟨c, _, hc, Statement.fixes_of_declaration hw, hg⟩

lemma DeclaresConstant.fixes (hf : f.Valid) (hd : f.DeclaresConstant id name v g) (hs : Steps g h)
    {m : Node} (hm : m ∈ h.nodes) (hid : m.id = id) : m.scope.Fixes name v := by
  obtain ⟨c, d, hc, hfix, rfl⟩ := hd.exists_update
  have hlive : m.id < (f.update id d).next := by
    obtain ⟨n, hn, heq⟩ := exists_of_chain? hc
    rw [hid, ← heq]
    exact hf.fresh n hn
  obtain ⟨n, hn, hkeeps⟩ := hs.keeps.source m hm hlive
  have hscope : n.scope = d.inner := scope_of_mem_restore hf.decreasing hn (hkeeps.id.symm.trans hid)
  exact hkeeps.scope.fixes (hscope ▸ hfix)

lemma DeclaresConstant.of_declare {w : Value}
    (h : f.evaluate? id (Evaluation.declare name v false) = some (.ok w, g)) :
    f.DeclaresConstant id name v g := by
  obtain ⟨c, -, -, ⟨_, hw, ⟨rfl⟩⟩ | ⟨e, -, ⟨⟩⟩⟩ := exists_of_evaluate? h
  obtain ⟨rfl, -⟩ := Evaluation.declare_eq_ok hw
  exact .call h

lemma declares_of_declareGlobals {r : Except RuntimeError Unit}
    (h : f.evaluate? id Evaluation.declareGlobals = some (r, g)) :
    (∃ e, f.evaluate? id (Evaluation.declare "true" (.boolean true) false) = some (.error e, g)) ∨
      ∃ f', f.DeclaresConstant id "true" (.boolean true) f' ∧
        ((∃ e, f'.evaluate? id (Evaluation.declare "false" (.boolean false) false) =
            some (.error e, g)) ∨ f'.DeclaresConstant id "false" (.boolean false) g) := by
  have htame (name : String) (b : Bool) := Evaluation.tame_declare name (.boolean b) false
  have hrest := (htame "false" false).bind fun _ => Evaluation.tame_pure ()
  obtain he | ⟨w, f', hw, h⟩ := evaluate?_bind (htame "true" true) (fun _ => hrest) h
  · exact .inl he
  · refine .inr ⟨f', .of_declare hw, ?_⟩
    obtain he | ⟨w', f'', hw', h⟩ :=
      evaluate?_bind (htame "false" false) (fun _ => Evaluation.tame_pure ()) h
    · exact .inl he
    · obtain ⟨c, hc, rfl, -⟩ := exists_of_evaluate? h
      rw [show (pure () : Evaluation Unit).after c = c from rfl, update_chain hc]
      exact .inr (.of_declare hw')

end

end Forest

namespace Session

inductive Reached : Session → Prop
  | start : Reached start
  | run {s} (source echo) : Reached s → Reached (s.run source echo).session
  | evaluate {s} (p echo) : Reached s → Reached (s.evaluate p echo).session

lemma keeps_evaluate (s : Session) (p : Program) (echo : Echo) :
    s.chain.Keeps (s.evaluate p echo).session.chain :=
  (runStatements_changes echo .null [] p.body s.chain).keeps

lemma keeps_run (s : Session) (source : String) (echo : Echo) :
    s.chain.Keeps (s.run source echo).session.chain := by
  rw [run]
  cases parse source with
  | ok p => exact s.keeps_evaluate p echo
  | error e => exact List.forall₂_refl s.chain.scopes

lemma Reached.fixes {s : Session} (h : Reached s) :
    s.chain.inner.Fixes "true" (.boolean true) ∧ s.chain.inner.Fixes "false" (.boolean false) := by
  have hstep {c d : Chain} (hcd : c.Keeps d)
      (hc : c.inner.Fixes "true" (.boolean true) ∧ c.inner.Fixes "false" (.boolean false)) :
      d.inner.Fixes "true" (.boolean true) ∧ d.inner.Fixes "false" (.boolean false) := by
    have hinner : c.inner.Keeps d.inner := (List.forall₂_cons.1 hcd).1
    exact ⟨hinner.fixes hc.1, hinner.fixes hc.2⟩
  induction h with
  | start => exact ⟨⟨rfl, rfl⟩, rfl, rfl⟩
  | run source echo _ ih => exact hstep (keeps_run _ source echo) ih
  | evaluate p echo _ ih => exact hstep (keeps_evaluate _ p echo) ih

end Session

namespace Forest

/-- In every scope that is live somewhere in a history, constants are bound, and as long as the
scope lives its names stay bound with their constancy, its constants with the values of their
declarations. -/
theorem constants_never_change (f : Forest) (hf : Steps empty f) (s : Session) (hs : s.Reached) :
    (∀ n ∈ f.nodes, ∀ name, n.scope.isConstant name → n.scope.has name) ∧
    (∀ g, Steps f g → ∀ n ∈ f.nodes, ∀ m ∈ g.nodes, m.id = n.id → ∀ name, n.scope.has name →
      m.scope.has name ∧ m.scope.isConstant name = n.scope.isConstant name ∧
        (n.scope.isConstant name → m.scope.value? name = n.scope.value? name)) ∧
    (∀ id name v g h, f.DeclaresConstant id name v g → Steps g h →
      ∀ m ∈ h.nodes, m.id = id → m.scope.Fixes name v) ∧
    (∀ id p echo r emitted g, f.run? id p echo = some (r, emitted, g) →
      Executes id p.body f g) ∧
    (∀ id r g, f.evaluate? id Evaluation.declareGlobals = some (r, g) →
      (∃ e, f.evaluate? id (Evaluation.declare "true" (.boolean true) false) =
        some (.error e, g)) ∨
      ∃ f', f.DeclaresConstant id "true" (.boolean true) f' ∧
        ((∃ e, f'.evaluate? id (Evaluation.declare "false" (.boolean false) false) =
          some (.error e, g)) ∨ f'.DeclaresConstant id "false" (.boolean false) g)) ∧
    s.chain.inner.Fixes "true" (.boolean true) ∧ s.chain.inner.Fixes "false" (.boolean false) := by
  have hvalid : f.Valid := hf.valid valid_empty
  refine ⟨hvalid.sound, ?_, ?_, ?_, ?_, hs.fixes⟩
  · intro g hg n hn m hm hid name hname
    have hkeeps := (hg.node_keeps hvalid hn hm hid).scope
    exact ⟨hkeeps.has name hname, hkeeps.isConstant name hname, hkeeps.value name hname⟩
  · intro id name v g h hd hs m hm hid
    exact hd.fixes hvalid hs hm hid
  · intro id p echo r emitted g hrun
    exact executes_of_run? hrun
  · intro id r g hglobals
    exact declares_of_declareGlobals hglobals

theorem constants_never_change_child :
    ∃ g h, (empty.create none).2.DeclaresConstant 0 "x" (.boolean true) g ∧
      (g.create (some 0)).2.run? 1 ⟨[.expression (.assignment (.identifier "x") .null)]⟩
        .suppressed = some (.error (.assignToConstant "x"), [], h) ∧
      h.nodes.map Node.id = [1, 0] ∧ (∀ m ∈ h.nodes, m.id = 0 → m.scope.Fixes "x" (.boolean true)) ∧
      (Session.start.run "true = null" .suppressed).session.chain.inner.Fixes "true"
        (.boolean true) := by
  let root : Node := ⟨0, none, ⟨[("x", .boolean true)], [("x", ())]⟩⟩
  let g : Forest := ⟨[root], 1⟩
  let h : Forest := ⟨[⟨1, some 0, .empty⟩, root], 2⟩
  have hd : (empty.create none).2.DeclaresConstant 0 "x" (.boolean true) g := .call rfl
  have hrun : (g.create (some 0)).2.run? 1 ⟨[.expression (.assignment (.identifier "x") .null)]⟩
      .suppressed = some (.error (.assignToConstant "x"), [], h) := rfl
  have hchild : Step g (g.create (some root.id)).2 := .child (List.mem_singleton_self root)
  have hsteps : Steps g h := .tail (.single hchild) (.run hrun)
  have hall := constants_never_change (empty.create none).2 (.single .global) _
    (.run "true = null" .suppressed .start)
  refine ⟨g, h, hd, hrun, rfl, ?_, hall.2.2.2.2.2.1⟩
  exact hall.2.2.1 0 "x" (.boolean true) g h hd hsteps

end Forest

end Varlet
