import Varlet.Proofs.Scoping.Changes

/-! Two runs of one program in chains that bind the same names. The values behind the names decide
which values come out, but neither whether the program fails nor how. -/

namespace Varlet

section

variable {ε α β γ δ : Type}

inductive FailAlike (R : α → β → Prop) : Except ε α → Except ε β → Prop
  | ok {a b} : R a b → FailAlike R (.ok a) (.ok b)
  | error (e) : FailAlike R (.error e) (.error e)

lemma FailAlike.map {R : α → β → Prop} {S : γ → δ → Prop} {x : Except ε α} {y : Except ε β}
    {f : α → γ} {g : β → δ} (h : FailAlike R x y) (hfg : ∀ a b, R a b → S (f a) (g b)) :
    FailAlike S (x.map f) (y.map g) := by
  cases h with
  | ok hab => exact .ok (hfg _ _ hab)
  | error e => exact .error e

end

namespace Scope

structure Alike (s t : Scope) : Prop where
  has : ∀ name, s.has name = t.has name
  isConstant : ∀ name, s.isConstant name = t.isConstant name

lemma has_put (s : Scope) (name other : String) (v : Value) :
    (s.put name v).has other = (other == name || s.has other) := by
  by_cases h : other = name
  · subst h
    simp [has]
  · simp [has, value?_put_of_ne h, h]

lemma isConstant_protect (s : Scope) (name other : String) :
    (s.protect name).isConstant other = (other == name || s.isConstant other) := by
  by_cases h : other = name
  · subst h
    simp
  · simp [isConstant_protect_of_ne h, h]

namespace Alike

variable {s t : Scope}

lemma put (h : s.Alike t) (name : String) (v w : Value) : (s.put name v).Alike (t.put name w) where
  has other := by rw [has_put, has_put, h.has]
  isConstant other := by rw [isConstant_put, isConstant_put, h.isConstant]

lemma protect (h : s.Alike t) (name : String) : (s.protect name).Alike (t.protect name) where
  has other := h.has other
  isConstant other := by rw [isConstant_protect, isConstant_protect, h.isConstant]

lemma declare (h : s.Alike t) (name : String) (v w : Value) (mutable : Bool) :
    FailAlike Alike (s.declare name v mutable) (t.declare name w mutable) := by
  rw [Scope.declare, Scope.declare, h.has]
  split_ifs
  · exact .error _
  · exact .ok (h.put name v w)
  · exact .ok ((h.put name v w).protect name)

lemma assign (h : s.Alike t) (name : String) (v w : Value) :
    FailAlike Alike (s.assign name v) (t.assign name w) := by
  rw [Scope.assign, Scope.assign, h.isConstant]
  split_ifs
  · exact .error _
  · exact .ok (h.put name v w)

end Alike

end Scope

lemma assignNearest_match {ss ts : List Scope} (h : List.Forall₂ Scope.Alike ss ts) (name : String)
    (v w : Value) :
    FailAlike (List.Forall₂ Scope.Alike) (assignNearest name v ss) (assignNearest name w ts) := by
  induction h with
  | nil => exact .error _
  | cons hst hrest ih =>
    rw [assignNearest, assignNearest, hst.has]
    split_ifs
    · exact (hst.assign name v w).map fun _ _ h => .cons h hrest
    · exact ih.map fun _ _ h => .cons hst h

namespace Chain

def Alike (c d : Chain) : Prop := List.Forall₂ Scope.Alike c.scopes d.scopes

variable {c d : Chain}

lemma Alike.inner (h : c.Alike d) : c.inner.Alike d.inner := (List.forall₂_cons.mp h).1

lemma Alike.outer (h : c.Alike d) : List.Forall₂ Scope.Alike c.outer d.outer :=
  (List.forall₂_cons.mp h).2

lemma Alike.declare (h : c.Alike d) (name : String) (v w : Value) (mutable : Bool) :
    FailAlike Alike (c.declare name v mutable) (d.declare name w mutable) :=
  (h.inner.declare name v w mutable).map fun _ _ hst => .cons hst h.outer

lemma Alike.assign (h : c.Alike d) (name : String) (v w : Value) :
    FailAlike Alike (c.assign name v) (d.assign name w) := by
  rw [Chain.assign, Chain.assign, h.inner.has]
  split_ifs
  · exact (h.inner.assign name v w).map fun _ _ hst => .cons hst h.outer
  · exact (assignNearest_match h.outer name v w).map fun _ _ hst => .cons h.inner hst

lemma Alike.owner? (h : c.Alike d) (name : String) :
    (c.owner? name).isSome = (d.owner? name).isSome := by
  have hscopes (ss ts : List Scope) (h : List.Forall₂ Scope.Alike ss ts) :
      (ss.find? (·.has name)).isSome = (ts.find? (·.has name)).isSome := by
    induction h with
    | nil => rfl
    | cons hst _ ih =>
      rw [List.find?_cons, List.find?_cons, hst.has]
      split
      · rfl
      · exact ih
  exact hscopes _ _ h

end Chain

namespace Evaluation

variable {α β γ δ : Type}

inductive EndAlike : EStateM.Result RuntimeError Chain α → EStateM.Result RuntimeError Chain β → Prop
  | ok {a b c d} : c.Alike d → EndAlike (.ok a c) (.ok b d)
  | error {e c d} : c.Alike d → EndAlike (.error e c) (.error e d)

def Uniform (m : Evaluation α) (m' : Evaluation β) : Prop :=
  ∀ c d : Chain, c.Alike d → EndAlike (m c) (m' d)

lemma uniform_pure (a : α) (b : β) : Uniform (pure a) (pure b) := fun _ _ h => .ok h

lemma uniform_throw (e : RuntimeError) :
    Uniform (throw e : Evaluation α) (throw e : Evaluation β) := fun _ _ h => .error h

lemma Uniform.bind {m : Evaluation α} {m' : Evaluation β} {k : α → Evaluation γ}
    {k' : β → Evaluation δ} (hm : Uniform m m') (hk : ∀ a b, Uniform (k a) (k' b)) :
    Uniform (m >>= k) (m' >>= k') := by
  intro c d h
  have hmatch := hm c d h
  generalize hr : m c = r, hr' : m' d = r' at hmatch
  cases hmatch with
  | ok h' =>
    rw [bind_of_ok hr, bind_of_ok hr']
    exact hk _ _ _ _ h'
  | error h' =>
    rw [bind_of_error hr, bind_of_error hr']
    exact .error h'

lemma lookup_of_isSome {c : Chain} {name : String} (h : (c.owner? name).isSome) :
    ∃ v, lookup name c = .ok v c := by
  obtain ⟨s, hs⟩ := Option.isSome_iff_exists.mp h
  have hfind : c.scopes.find? (fun t => t.has name) = some s := hs
  have hbound := List.find?_some hfind
  obtain ⟨v, hv⟩ := Option.isSome_iff_exists.mp hbound
  exact ⟨v, by simp only [lookup, hs, hv]⟩

lemma lookup_of_not_isSome {c : Chain} {name : String} (h : ¬ (c.owner? name).isSome) :
    lookup name c = .error (.undefinedVariable name) c := by
  rw [Option.not_isSome_iff_eq_none] at h
  simp only [lookup, h]

lemma uniform_lookup (name : String) : Uniform (lookup name) (lookup name) := by
  intro c d h
  by_cases hc : (c.owner? name).isSome
  · obtain ⟨v, hv⟩ := lookup_of_isSome hc
    obtain ⟨w, hw⟩ := lookup_of_isSome (h.owner? name ▸ hc)
    rw [hv, hw]
    exact .ok h
  · rw [lookup_of_not_isSome hc, lookup_of_not_isSome (h.owner? name ▸ hc)]
    exact .error h

lemma uniform_declare (name : String) (v w : Value) (mutable : Bool) :
    Uniform (declare name v mutable) (declare name w mutable) := by
  intro c d h
  have hmatch := h.declare name v w mutable
  simp only [declare]
  generalize c.declare name v mutable = r, d.declare name w mutable = r' at hmatch
  cases hmatch with
  | ok h' => exact .ok h'
  | error e => exact .error h

lemma uniform_assign (name : String) (v w : Value) : Uniform (assign name v) (assign name w) := by
  intro c d h
  have hmatch := h.assign name v w
  simp only [assign]
  generalize c.assign name v = r, d.assign name w = r' at hmatch
  cases hmatch with
  | ok h' => exact .ok h'
  | error e => exact .error h

end Evaluation

open Evaluation

mutual

lemma Expr.uniform : ∀ e : Expr, Uniform e.evaluate e.evaluate
  | .number x => by
    rw [Expr.evaluate]
    exact uniform_pure _ _
  | .null => by
    rw [Expr.evaluate]
    exact uniform_pure _ _
  | .identifier name => by
    rw [Expr.evaluate]
    exact uniform_lookup name
  | .binary left op right => by
    rw [Expr.evaluate]
    exact left.uniform.bind fun _ _ => right.uniform.bind fun _ _ => uniform_pure _ _
  | .assignment target value => by
    cases target with
    | identifier name =>
      rw [Expr.evaluate]
      exact value.uniform.bind fun v w => uniform_assign name v w
    | _ =>
      simp only [Expr.evaluate]
      exact uniform_throw _
  | .object ps => by
    rw [Expr.evaluate]
    exact (properties_uniform [] [] ps).bind fun _ _ => uniform_pure _ _

lemma properties_uniform : ∀ (fields fields' : List (String × Value)) (ps : List (Property Expr)),
    Uniform (evaluateProperties fields ps) (evaluateProperties fields' ps)
  | fields, fields', [] => by
    rw [evaluateProperties, evaluateProperties]
    exact uniform_pure _ _
  | fields, fields', ⟨key, some e⟩ :: ps => by
    rw [evaluateProperties, evaluateProperties]
    exact e.uniform.bind fun _ _ => properties_uniform _ _ ps
  | fields, fields', ⟨key, none⟩ :: ps => by
    rw [evaluateProperties, evaluateProperties]
    exact (uniform_lookup key).bind fun _ _ => properties_uniform _ _ ps

end

lemma Statement.uniform (s : Statement) : Uniform s.evaluate s.evaluate := by
  cases s with
  | declaration mutable name initializer =>
    cases initializer with
    | none => exact uniform_declare name _ _ mutable
    | some e => exact e.uniform.bind fun v w => uniform_declare name v w mutable
  | expression e => exact e.uniform

structure Run.Alike (r r' : Run) : Prop where
  result : FailAlike (fun _ _ => True) r.result r'.result
  emitted : r.emitted.length = r'.emitted.length
  chain : r.chain.Alike r'.chain

lemma runStatements_alike {c d : Chain} (h : c.Alike d) (echo : Echo) (last last' : Value)
    {emitted emitted' : List Value} (he : emitted.length = emitted'.length)
    (ss : List Statement) :
    Run.Alike (runStatements echo last emitted ss c) (runStatements echo last' emitted' ss d) := by
  induction ss generalizing last last' emitted emitted' c d with
  | nil => exact ⟨.ok trivial, by simpa [runStatements] using he, h⟩
  | cons s ss ih =>
    have hmatch := s.uniform c d h
    rw [runStatements, runStatements]
    generalize s.evaluate c = r, s.evaluate d = r' at hmatch
    cases hmatch with
    | error h' => exact ⟨.error _, by simpa using he, h'⟩
    | ok h' =>
      apply ih h'
      split_ifs
      · exact congrArg (· + 1) he
      · exact he

theorem Program.failure_independent_of_values (p : Program) (echo : Echo) (c d : Chain)
    (h : c.Alike d) :
    (∀ e, (p.run echo c).result = .error e ↔ (p.run echo d).result = .error e) ∧
      (p.run echo c).chain.Alike (p.run echo d).chain ∧
      (p.run echo c).emitted.length = (p.run echo d).emitted.length := by
  have hrun : (p.run echo c).Alike (p.run echo d) :=
    runStatements_alike h echo .null .null rfl p.body
  refine ⟨fun e => ?_, hrun.chain, hrun.emitted⟩
  have hresult := hrun.result
  generalize (p.run echo c).result = r, (p.run echo d).result = r' at hresult
  cases hresult with
  | ok _ => simp
  | error e' => simp

theorem Program.failure_independent_of_values_constant :
    let p : Program := ⟨[.expression (.binary (.identifier "x") .add (.identifier "y")),
      .expression (.object [⟨"x", none⟩, ⟨"y", some (.assignment (.identifier "y") .null)⟩])]⟩
    let outer (v : Value) : Scope := ⟨[("y", v)], [("y", ())]⟩
    let c : Chain := ⟨⟨[("x", .number 1)], []⟩, [outer (.number 2)]⟩
    let d : Chain := ⟨⟨[("x", .boolean true)], []⟩, [outer (.object [])]⟩
    (p.run .statements c).result = .error (.assignToConstant "y") ∧
      (p.run .statements d).result = .error (.assignToConstant "y") ∧
      (p.run .statements d).emitted.length = 1 := by
  intro p outer c d
  have hscope (name : String) (v w : Value) (constants : List (String × Unit)) :
      Scope.Alike ⟨[(name, v)], constants⟩ ⟨[(name, w)], constants⟩ := by
    refine ⟨fun other => ?_, fun _ => rfl⟩
    cases h : other == name <;> simp [Scope.has, Scope.value?, List.lookup_cons, h]
  have halike : c.Alike d := .cons (hscope _ _ _ _) (.cons (hscope _ _ _ _) .nil)
  have hc : (p.run .statements c).result = .error (.assignToConstant "y") := rfl
  obtain ⟨hresult, -, hemitted⟩ := failure_independent_of_values p .statements c d halike
  exact ⟨hc, (hresult _).mp hc, hemitted.symm⟩

end Varlet
