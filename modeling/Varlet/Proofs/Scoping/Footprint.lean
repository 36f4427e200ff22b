import Varlet.Proofs.Parsing.Height
import Varlet.Proofs.Scoping.Changes

/-! Which names an evaluation may read and assign to. Evaluation of an expression is put together
from lookups and assignments, so what those two respect it respects. -/

namespace Varlet

def ReadIn (nodes : List Expr) (name : String) : Prop :=
  .identifier name ∈ nodes ∨ ∃ ps, .object ps ∈ nodes ∧ ⟨name, none⟩ ∈ ps

def AssignedIn (nodes : List Expr) (name : String) : Prop :=
  ∃ value, .assignment (.identifier name) value ∈ nodes

inductive Evaluation.Uses (reads writes : String → Prop) : {α : Type} → Evaluation α → Prop
  | pure {α : Type} (a : α) : Uses reads writes (pure a)
  | throw {α : Type} (e : RuntimeError) : Uses reads writes (throw e : Evaluation α)
  | lookup {name} : reads name → Uses reads writes (lookup name)
  | assign {name} (v) : writes name → Uses reads writes (assign name v)
  | bind {α β : Type} {m : Evaluation α} {k : α → Evaluation β} :
      Uses reads writes m → (∀ a, Uses reads writes (k a)) → Uses reads writes (m >>= k)

open Evaluation

mutual

lemma Expr.uses_of_subset {nodes : List Expr} :
    ∀ e : Expr, e.parts ⊆ nodes → e.evaluate.Uses (ReadIn nodes) (AssignedIn nodes)
  | .number x, _ => by
    rw [Expr.evaluate]
    exact .pure _
  | .null, _ => by
    rw [Expr.evaluate]
    exact .pure _
  | .identifier name, h => by
    rw [Expr.evaluate]
    exact .lookup (.inl (h (Expr.mem_parts_self _)))
  | .binary left op right, h => by
    obtain ⟨-, hparts⟩ := List.cons_subset.mp h
    obtain ⟨hl, hr⟩ := List.append_subset.mp hparts
    rw [Expr.evaluate]
    exact (left.uses_of_subset hl).bind fun a => (right.uses_of_subset hr).bind fun b => .pure _
  | .assignment target value, h => by
    obtain ⟨hmem, hparts⟩ := List.cons_subset.mp h
    cases target with
    | identifier name =>
      rw [Expr.evaluate]
      have hv := value.uses_of_subset (List.append_subset.mp hparts).2
      exact hv.bind fun v => .assign v ⟨value, hmem⟩
    | _ =>
      simp only [Expr.evaluate]
      exact .throw _
  | .object ps, h => by
    obtain ⟨hmem, hparts⟩ := List.cons_subset.mp h
    rw [Expr.evaluate]
    have hps := properties_use_of_subset [] ps hparts fun key hkey => .inr ⟨ps, hmem, hkey⟩
    exact hps.bind fun fields => .pure _

lemma properties_use_of_subset {nodes : List Expr} :
    ∀ (fields : List (String × Value)) (ps : List (Property Expr)), propertiesParts ps ⊆ nodes →
      (∀ key, ⟨key, none⟩ ∈ ps → ReadIn nodes key) →
      (evaluateProperties fields ps).Uses (ReadIn nodes) (AssignedIn nodes)
  | fields, [], _, _ => by
    rw [evaluateProperties]
    exact .pure _
  | fields, ⟨key, some e⟩ :: ps, h, hkeys => by
    obtain ⟨he, hps⟩ := List.append_subset.mp h
    rw [evaluateProperties]
    exact (e.uses_of_subset he).bind fun v =>
      properties_use_of_subset _ ps hps fun _ hmem => hkeys _ (List.mem_cons_of_mem _ hmem)
  | fields, ⟨key, none⟩ :: ps, h, hkeys => by
    rw [evaluateProperties]
    exact (Uses.lookup (hkeys key List.mem_cons_self)).bind fun v =>
      properties_use_of_subset _ ps h fun _ hmem => hkeys _ (List.mem_cons_of_mem _ hmem)

end

lemma Expr.uses (e : Expr) : e.evaluate.Uses (ReadIn e.parts) (AssignedIn e.parts) :=
  e.uses_of_subset (List.Subset.refl _)

end Varlet
