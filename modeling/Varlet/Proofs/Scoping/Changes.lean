import Mathlib
import Varlet.Evaluation

/-! What evaluation does to a chain of scopes: it declares names in the innermost scope and assigns
to the nearest ones, and nothing else. -/

namespace Varlet

open Relation

namespace Chain

inductive Change : Chain → Chain → Prop
  | declare {c d name v mutable} : c.declare name v mutable = .ok d → Change c d
  | assign {c d name v} : c.assign name v = .ok d → Change c d

abbrev Changes : Chain → Chain → Prop := ReflTransGen Change

end Chain

namespace Evaluation

variable {α β : Type}

def after (m : Evaluation α) (c : Chain) : Chain :=
  match m c with
  | .ok _ d => d
  | .error _ d => d

def Tame (m : Evaluation α) : Prop := ∀ c : Chain, c.Changes (m.after c)

section

variable {m : Evaluation α} {c d : Chain}

lemma after_of_ok {a : α} (h : m c = .ok a d) : m.after c = d := by rw [after, h]

lemma after_of_error {e : RuntimeError} (h : m c = .error e d) : m.after c = d := by rw [after, h]

lemma Tame.of_ok {a : α} (hm : m.Tame) (h : m c = .ok a d) : c.Changes d :=
  after_of_ok h ▸ hm c

lemma Tame.of_error {e : RuntimeError} (hm : m.Tame) (h : m c = .error e d) : c.Changes d :=
  after_of_error h ▸ hm c

end

lemma tame_pure (a : α) : Tame (pure a) := fun _ => .refl

lemma tame_throw (e : RuntimeError) : Tame (throw e : Evaluation α) := fun _ => .refl

section

variable {m : Evaluation α} {c d : Chain}

lemma bind_of_ok {a : α} (h : m c = .ok a d) (k : α → Evaluation β) : (m >>= k) c = k a d := by
  change EStateM.bind m k c = k a d
  simp only [EStateM.bind, h]

lemma bind_of_error {e : RuntimeError} (h : m c = .error e d) (k : α → Evaluation β) :
    (m >>= k) c = .error e d := by
  change EStateM.bind m k c = .error e d
  simp only [EStateM.bind, h]

lemma Tame.bind {k : α → Evaluation β} (hm : m.Tame) (hk : ∀ a, (k a).Tame) :
    Tame (m >>= k) := by
  intro c
  rw [after]
  cases hr : m c with
  | error e d =>
    rw [bind_of_error hr]
    exact hm.of_error hr
  | ok a d =>
    rw [bind_of_ok hr]
    exact (hm.of_ok hr).trans (hk a d)

end

lemma after_lookup (name : String) (c : Chain) : (lookup name).after c = c := by
  simp only [after, lookup]
  cases c.owner? name with
  | none => rfl
  | some s => cases hv : s.value? name <;> simp [hv]

lemma tame_lookup (name : String) : Tame (lookup name) := by
  intro c
  rw [after_lookup]

lemma tame_of_change {m : Evaluation α} (h : ∀ c, m.after c = c ∨ c.Change (m.after c)) :
    m.Tame := by
  intro c
  rcases h c with heq | hchange
  · rw [heq]
  · exact .single hchange

lemma tame_declare (name : String) (v : Value) (mutable : Bool) :
    Tame (declare name v mutable) := by
  refine tame_of_change fun c => ?_
  cases h : c.declare name v mutable with
  | error e => exact .inl (by simp [after, declare, h])
  | ok d => exact .inr (by simpa [after, declare, h] using Chain.Change.declare h)

lemma tame_assign (name : String) (v : Value) : Tame (assign name v) := by
  refine tame_of_change fun c => ?_
  cases h : c.assign name v with
  | error e => exact .inl (by simp [after, assign, h])
  | ok d => exact .inr (by simpa [after, assign, h] using Chain.Change.assign h)

lemma tame_declareGlobals : Tame declareGlobals :=
  (tame_declare _ _ _).bind fun _ => (tame_declare _ _ _).bind fun _ => tame_pure _

end Evaluation

open Evaluation

mutual

lemma Expr.tame : ∀ e : Expr, e.evaluate.Tame
  | .number x => by
    rw [Expr.evaluate]
    exact tame_pure _
  | .null => by
    rw [Expr.evaluate]
    exact tame_pure _
  | .identifier name => by
    rw [Expr.evaluate]
    exact tame_lookup name
  | .binary left op right => by
    rw [Expr.evaluate]
    exact left.tame.bind fun a => right.tame.bind fun b => tame_pure _
  | .assignment target value => by
    cases target with
    | identifier name =>
      rw [Expr.evaluate]
      exact value.tame.bind fun v => tame_assign name v
    | _ =>
      simp only [Expr.evaluate]
      exact tame_throw _
  | .object ps => by
    rw [Expr.evaluate]
    exact (properties_tame [] ps).bind fun fields => tame_pure _

lemma properties_tame : ∀ (fields : List (String × Value)) (ps : List (Property Expr)),
    (evaluateProperties fields ps).Tame
  | fields, [] => by
    rw [evaluateProperties]
    exact tame_pure _
  | fields, ⟨key, some e⟩ :: ps => by
    rw [evaluateProperties]
    exact e.tame.bind fun v => properties_tame _ ps
  | fields, ⟨key, none⟩ :: ps => by
    rw [evaluateProperties]
    exact (tame_lookup key).bind fun v => properties_tame _ ps

end

lemma Statement.tame (s : Statement) : s.evaluate.Tame := by
  cases s with
  | declaration mutable name initializer =>
    cases initializer with
    | none => exact tame_declare name .null mutable
    | some e => exact e.tame.bind fun v => tame_declare name v mutable
  | expression e => exact e.tame

lemma runStatements_changes (echo : Echo) (last : Value) (emitted : List Value)
    (ss : List Statement) (c : Chain) :
    c.Changes (runStatements echo last emitted ss c).chain := by
  induction ss generalizing last emitted c with
  | nil => exact .refl
  | cons s ss ih =>
    rw [runStatements]
    cases hr : s.evaluate c with
    | error e d => exact s.tame.of_error hr
    | ok v d => exact (s.tame.of_ok hr).trans (ih _ _ d)

end Varlet
