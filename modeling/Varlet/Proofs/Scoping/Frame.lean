import Varlet.Proofs.Scoping.Overwriting
import Varlet.Proofs.Scoping.Resolution

namespace Varlet

lemma Program.parts_subset_expressions {p : Program} {s : Statement} (hs : s ∈ p.body) :
    ∀ e ∈ s.expression?, e.parts ⊆ p.expressions := by
  intro e he d hd
  refine List.mem_flatMap.mpr ⟨s, hs, List.mem_flatMap.mpr ⟨e, ?_, hd⟩⟩
  simpa using he

lemma Statement.mem_declares {ss : List Statement} {name : String} {mutable : Bool} :
    (name, mutable) ∈ ss.flatMap declares ↔
      ∃ initializer, .declaration mutable name initializer ∈ ss := by
  rw [List.mem_flatMap]
  constructor
  · rintro ⟨s, hs, hmem⟩
    cases s with
    | declaration mutable' name' initializer =>
      obtain ⟨rfl, rfl⟩ := Prod.mk.inj (List.mem_singleton.mp hmem)
      exact ⟨initializer, hs⟩
    | expression e => cases hmem
  · rintro ⟨initializer, hs⟩
    exact ⟨_, hs, List.mem_singleton_self _⟩

namespace Forest

inductive RunsTo (id : ℕ) :
    Forest → List Statement → List Statement → Except RuntimeError Value → Forest → Prop
  | finished {f} (v) : RunsTo id f [] [] (.ok v) f
  | failed {f g e ss} {s : Statement} : f.evaluate? id s.evaluate = some (.error e, g) →
      RunsTo id f (s :: ss) [] (.error e) g
  | next {f g h v ss done r} {s : Statement} : f.evaluate? id s.evaluate = some (.ok v, g) →
      RunsTo id g ss done r h → RunsTo id f (s :: ss) (s :: done) r h

namespace RunsTo

variable {id : ℕ} {f g : Forest} {ss done : List Statement} {r : Except RuntimeError Value}

lemma done_of_ok {v : Value} (h : RunsTo id f ss done r g) (hr : r = .ok v) : done = ss := by
  induction h with
  | finished => rfl
  | failed => cases hr
  | next _ _ ih => rw [ih hr]

lemma exists_of_error {e : RuntimeError} (h : RunsTo id f ss done r g) (hr : r = .error e) :
    ∃ s rest, ss = done ++ s :: rest := by
  induction h with
  | finished => cases hr
  | @failed _ _ _ ss s _ => exact ⟨s, ss, rfl⟩
  | @next _ _ _ _ _ _ _ s _ _ ih =>
    obtain ⟨t, rest, heq⟩ := ih hr
    exact ⟨t, rest, by rw [heq, List.cons_append]⟩

end RunsTo

section

variable {f : Forest} {n m m' : Node} {id : ℕ} {c d : Chain} {writes : String → Prop}
variable {added : List (String × Bool)} {nodes : List Expr} {ss : List Statement}

lemma exists_runsTo (hc : f.chain? id = some c) (hsound : c.inner.Sound)
    (hss : ∀ s ∈ ss, ∀ e ∈ s.expression?, e.parts ⊆ nodes) (echo : Echo) (last : Value)
    (emitted : List Value) :
    ∃ done, RunsTo id f ss done (runStatements echo last emitted ss c).result
        (f.update id (runStatements echo last emitted ss c).chain) ∧
      c.Extends (AssignedIn nodes) (done.flatMap Statement.declares)
        (runStatements echo last emitted ss c).chain := by
  induction ss generalizing f c last emitted with
  | nil =>
    rw [runStatements, update_chain hc]
    exact ⟨[], .finished last, .refl _ c⟩
  | cons s ss ih =>
    rw [List.forall_mem_cons] at hss
    rw [runStatements]
    cases hr : s.evaluate c with
    | error e d =>
      exact ⟨[], .failed (evaluate?_of_error hc hr), Statement.extends_of_error hss.1 hr⟩
    | ok v d =>
      have hkeeps := (s.tame.of_ok hr).keeps
      obtain ⟨done, hruns, hext⟩ := ih (chain?_update hc hkeeps)
        ((List.forall₂_cons.mp hkeeps).1.sound hsound) hss.2 v
        (if echo = .statements ∧ s.echoes then v :: emitted else emitted)
      rw [update_update (runStatements_changes _ _ _ _ _).keeps] at hruns
      exact ⟨s :: done, .next (evaluate?_of_ok hc hr) hruns,
        (Statement.extends_of_ok hss.1 hsound hr).trans hext⟩

lemma overwrites_of_mem_update (hf : f.Valid) (hn : n ∈ f.nodes) (hc : f.chain? n.id = some c)
    (hkeeps : c.Keeps d) (hd : c.Extends writes added d) (hm : m ∈ f.nodes)
    (hm' : m' ∈ (f.update n.id d).nodes) (hid : m'.id = m.id) (hne : m.id ≠ n.id) :
    m.scope.Alike m'.scope ∧ ∀ name, m'.scope.value? name ≠ m.scope.value? name →
      writes name ∧ m.scope.isConstant name = false ∧
      ∃ nearer beyond, f.Outwards n (nearer ++ m :: beyond) ∧ ∀ k ∈ nearer, ¬ k.scope.has name := by
  have hlen : d.scopes.length = (lineage f.nodes (some n.id)).length := by
    rw [← hkeeps.length_eq, ← chain?_eq_some.1 hc, List.length_map]
  obtain hmem | ⟨nearer, k, beyond, before, after, hl, hk, hkid, hscopes, hlen⟩ :=
    mem_or_exists_of_mem_restore hlen hm'
  · obtain rfl := hf.eq_of_id hmem hm hid
    exact ⟨.refl _, fun name h => absurd rfl h⟩
  · obtain rfl := hf.eq_of_id hk hm (hkid.symm.trans hid)
    have hpath := outwards_lineage hf hn
    rw [hl] at hpath
    rw [lineage_of_mem hf.decreasing hf.older hn] at hl
    cases nearer with
    | nil => exact absurd (congrArg Node.id (List.cons.inj hl).1).symm hne
    | cons n' nearer =>
      obtain ⟨s, before, rfl⟩ := List.exists_cons_of_length_eq_add_one hlen.symm
      rw [List.cons_append] at hl hscopes
      obtain ⟨rfl, hparents⟩ := List.cons.inj hl
      have houter := hd.outer
      obtain rfl := Option.some.inj (hc.symm.trans (chain?_of_mem hf hn))
      rw [(List.cons.inj hscopes).2, hparents, List.map_append, List.map_cons] at houter
      obtain ⟨halike, hvalue⟩ := houter.at_append (by simpa using hlen)
      refine ⟨halike, fun name h => ?_⟩
      obtain ⟨⟨hw, hnot⟩, hconstant, hnearer⟩ := hvalue name h
      refine ⟨hw, hconstant, n :: nearer, beyond, hpath, ?_⟩
      rw [List.forall_mem_cons]
      exact ⟨hnot, by simpa using hnearer⟩

lemma eq_of_failed_call {α : Type} {call : Evaluation α} {g : Forest} {e : RuntimeError}
    (hcall : ∀ c e d, call c = .error e d → d = c)
    (h : f.evaluate? id call = some (.error e, g)) : g = f := by
  obtain ⟨c, hc, rfl, ⟨a, -, ⟨⟩⟩ | ⟨e', he, -⟩⟩ := exists_of_evaluate? h
  rw [hcall c e' _ he, update_chain hc]

end

structure ChangedAt (f : Forest) (n : Node) (p : Program) (m m' : Node) : Prop where
  keeps : m.Keeps m'
  alike : m.id ≠ n.id → m.scope.Alike m'.scope
  value : ∀ name, m.scope.has name → m'.scope.value? name ≠ m.scope.value? name →
    m.scope.isConstant name = false ∧ AssignedIn p.expressions name ∧
      ∃ nearer beyond, f.Outwards n (nearer ++ m :: beyond) ∧ ∀ k ∈ nearer, ¬ k.scope.has name

lemma changedAt_update {f : Forest} {n m m' : Node} {p : Program} {c d : Chain}
    {added : List (String × Bool)} (hf : f.Valid) (hn : n ∈ f.nodes)
    (hc : f.chain? n.id = some c) (hkeeps : c.Keeps d)
    (hd : c.Extends (AssignedIn p.expressions) added d) (hm : m ∈ f.nodes)
    (hm' : m' ∈ (f.update n.id d).nodes) (hid : m'.id = m.id) : f.ChangedAt n p m m' := by
  obtain ⟨k, hk, hkm⟩ := exists_of_mem_update hc hkeeps hm'
  obtain rfl := hf.eq_of_id hk hm (hkm.id.symm.trans hid)
  refine ⟨hkm, fun hne => ?_, fun name hname hvalue => ?_⟩
  · exact (overwrites_of_mem_update hf hn hc hkeeps hd hm hm' hid hne).1
  · by_cases heq : k.id = n.id
    · obtain rfl := hf.eq_of_id hm hn heq
      obtain rfl := Option.some.inj (hc.symm.trans (chain?_of_mem hf hn))
      rw [scope_of_mem_restore hf.decreasing hm' hid] at hvalue
      obtain ⟨hw, hconstant⟩ := hd.value name hname hvalue
      have hpath := outwards_lineage hf hn
      rw [lineage_of_mem hf.decreasing hf.older hn] at hpath
      exact ⟨hconstant, hw, [], _, hpath, by simp⟩
    · obtain ⟨hw, hconstant, hpath⟩ :=
        (overwrites_of_mem_update hf hn hc hkeeps hd hm hm' hid heq).2 name hvalue
      exact ⟨hconstant, hw, hpath⟩

/-- A program adds the names of the declarations that have completed to the scope it runs in, and no
other scope gains or loses a name. A binding has another value only if it is mutable, the program
assigns to its name, and it is the nearest one of that name. -/
theorem run_changes_only (f : Forest) (hf : Steps empty f) (n : Node) (hn : n ∈ f.nodes)
    (p : Program) (echo : Echo) :
    (∃ r emitted g done, f.run? n.id p echo = some (r, emitted, g) ∧
      RunsTo n.id f p.body done r g ∧ (∀ v, r = .ok v → done = p.body) ∧
      (∀ e, r = .error e → ∃ s rest, p.body = done ++ s :: rest) ∧
      g.nodes.map Node.id = f.nodes.map Node.id ∧
      (∀ m ∈ f.nodes, ∀ m' ∈ g.nodes, m'.id = m.id → f.ChangedAt n p m m') ∧
      ∀ n' ∈ g.nodes, n'.id = n.id → ∀ name,
        (n'.scope.has name ↔ n.scope.has name ∨
          ∃ mutable initializer, .declaration mutable name initializer ∈ done) ∧
        (n'.scope.isConstant name ↔ n.scope.isConstant name ∨
          ∃ initializer, .declaration false name initializer ∈ done) ∧
        ∀ mutable initializer, .declaration mutable name initializer ∈ done →
          ¬ n.scope.has name ∧ n'.scope.isConstant name = !mutable) ∧
    (∀ id name v mutable e g,
      f.evaluate? id (Evaluation.declare name v mutable) = some (.error e, g) → g = f) ∧
    ∀ id name v e g, f.evaluate? id (Evaluation.assign name v) = some (.error e, g) → g = f := by
  have hvalid : f.Valid := hf.valid valid_empty
  refine ⟨?_, ?_, ?_⟩
  · have hc := chain?_of_mem hvalid hn
    obtain ⟨done, hruns, hext⟩ := exists_runsTo hc (hvalid.sound n hn)
      (fun s hs => Program.parts_subset_expressions hs) echo .null []
    have hkeeps := (runStatements_changes echo .null [] p.body
      ⟨n.scope, (lineage f.nodes n.parent).map Node.scope⟩).keeps
    refine ⟨_, _, _, done, congrArg (Option.map _) hc, hruns, fun v => hruns.done_of_ok,
      fun e => hruns.exists_of_error, map_id_restore _ _ _, ?_, ?_⟩
    · intro m hm m' hm' hid
      exact changedAt_update hvalid hn hc hkeeps hext hm hm' hid
    · intro n' hn' hid name
      rw [scope_of_mem_restore hvalid.decreasing hn' hid]
      simp only [← Statement.mem_declares]
      refine ⟨hext.has name, hext.isConstant name, fun mutable initializer hmem => ?_⟩
      exact hext.added name mutable (Statement.mem_declares.mpr ⟨initializer, hmem⟩)
  · intro id name v mutable e g h
    exact eq_of_failed_call (fun _ _ _ => Evaluation.declare_eq_error) h
  · intro id name v e g h
    exact eq_of_failed_call (fun _ _ _ => Evaluation.assign_eq_error) h

theorem run_changes_only_failing :
    let p : Program := ⟨[.declaration false "y" (some (.assignment (.identifier "x") .null)),
      .expression (.assignment (.identifier "y") .null)]⟩
    let root (v : Value) : Node := ⟨0, none, ⟨[("x", v)], []⟩⟩
    let inner : Node := ⟨1, some 0, .empty⟩
    let inner' : Node := ⟨1, some 0, ⟨[("y", .null)], [("y", ())]⟩⟩
    let f : Forest := ⟨[inner, root (.boolean true)], 2⟩
    Steps empty f ∧ inner ∈ f.nodes ∧
      f.run? 1 p .suppressed =
        some (.error (.assignToConstant "y"), [], ⟨[inner', root .null], 2⟩) ∧
      f.ChangedAt inner p (root (.boolean true)) (root .null) ∧ f.ChangedAt inner p inner inner' := by
  intro p root inner inner' f
  have hdeclare : (empty.create none).2.evaluate? 0 (Evaluation.declare "x" (.boolean true) true) =
      some (.ok (.boolean true), ⟨[root (.boolean true)], 1⟩) := rfl
  have hchild : Step ⟨[root (.boolean true)], 1⟩ f := .child (n := root (.boolean true)) (by simp)
  have hf : Steps empty f := .tail (.tail (.single .global) (.declare hdeclare)) hchild
  have hinner : inner ∈ f.nodes := List.mem_cons_self
  have hrun : f.run? 1 p .suppressed =
      some (.error (.assignToConstant "y"), [], ⟨[inner', root .null], 2⟩) := rfl
  obtain ⟨⟨r, emitted, g, done, hrun', -, -, -, -, hchanged, -⟩, -⟩ :=
    run_changes_only f hf inner hinner p .suppressed
  obtain ⟨rfl, rfl, rfl⟩ : .error (.assignToConstant "y") = r ∧ [] = emitted ∧
      ⟨[inner', root .null], 2⟩ = g := by
    simpa using hrun.symm.trans hrun'
  exact ⟨hf, hinner, hrun, hchanged _ (by simp [f]) _ (by simp) rfl,
    hchanged _ (by simp [f]) _ (by simp) rfl⟩

end Forest

end Varlet
