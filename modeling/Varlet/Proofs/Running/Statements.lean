import Mathlib
import Varlet.Evaluation

namespace Varlet

namespace Run

def prepend (vs : List Value) (r : Run) : Run := { r with emitted := vs ++ r.emitted }

def andThen (r : Run) (next : Value → Chain → Run) : Run :=
  match r.result with
  | .ok v => (next v r.chain).prepend r.emitted
  | .error _ => r

lemma prepend_prepend (vs ws : List Value) (r : Run) :
    (r.prepend ws).prepend vs = r.prepend (vs ++ ws) := by
  simp [prepend]

lemma andThen_prepend (vs : List Value) (r : Run) (next : Value → Chain → Run) :
    (r.prepend vs).andThen next = (r.andThen next).prepend vs := by
  cases hr : r.result <;> simp [andThen, prepend, hr]

end Run

lemma runStatements_emitted (echo : Echo) (last : Value) (emitted : List Value)
    (ss : List Statement) (c : Chain) :
    runStatements echo last emitted ss c =
      (runStatements echo last [] ss c).prepend emitted.reverse := by
  induction ss generalizing last emitted c with
  | nil => simp [runStatements, Run.prepend]
  | cons s ss ih =>
    simp only [runStatements]
    cases s.evaluate c with
    | error e c => simp [Run.prepend]
    | ok v c =>
      by_cases hs : echo = .statements ∧ s.echoes
      · simp only [if_pos hs]
        rw [ih v (v :: emitted), ih v [v], Run.prepend_prepend, List.reverse_cons]
        rfl
      · simp only [if_neg hs]
        exact ih v emitted c

lemma runStatements_append (echo : Echo) (last : Value) (ss ts : List Statement) (c : Chain) :
    runStatements echo last [] (ss ++ ts) c =
      (runStatements echo last [] ss c).andThen fun v c => runStatements echo v [] ts c := by
  induction ss generalizing last c with
  | nil => simp [runStatements, Run.andThen, Run.prepend]
  | cons s ss ih =>
    simp only [List.cons_append, runStatements]
    cases s.evaluate c with
    | error e c => rfl
    | ok v c =>
      simp only
      rw [runStatements_emitted, ih, ← Run.andThen_prepend, ← runStatements_emitted]

lemma runStatements_last {ss : List Statement} (h : ss ≠ []) (echo : Echo) (last last' : Value)
    (emitted : List Value) (c : Chain) :
    runStatements echo last emitted ss c = runStatements echo last' emitted ss c := by
  cases ss with
  | nil => exact absurd rfl h
  | cons s ss => rfl

lemma runStatements_echo (echo echo' : Echo) (last : Value) (emitted emitted' : List Value)
    (ss : List Statement) (c : Chain) :
    (runStatements echo last emitted ss c).result =
        (runStatements echo' last emitted' ss c).result ∧
      (runStatements echo last emitted ss c).chain =
        (runStatements echo' last emitted' ss c).chain := by
  induction ss generalizing last emitted emitted' c with
  | nil => exact ⟨rfl, rfl⟩
  | cons s ss ih =>
    simp only [runStatements]
    cases s.evaluate c with
    | error e c => exact ⟨rfl, rfl⟩
    | ok v c => exact ih v _ _ c

end Varlet
