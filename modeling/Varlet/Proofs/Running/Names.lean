import Varlet.Proofs.Parsing.Names
import Varlet.Proofs.Running.Display
import Varlet.Proofs.Scoping.Nearest

/-! The names in a session. They enter it with the sources that parse, and evaluation makes no new
ones: keys come from object literals, and variables from declarations. -/

namespace Varlet

mutual

def Value.keys : Value → List String
  | .null | .boolean _ | .number _ => []
  | .object fields => fieldsKeys fields

def fieldsKeys : List (String × Value) → List String
  | [] => []
  | (key, v) :: fields => key :: (v.keys ++ fieldsKeys fields)

end

def Value.WellNamed (v : Value) : Prop := ∀ key ∈ v.keys, IsName key

def Scope.WellNamed (s : Scope) : Prop :=
  ∀ name v, s.value? name = some v → IsName name ∧ v.WellNamed

def Chain.WellNamed (c : Chain) : Prop := ∀ s ∈ c.scopes, s.WellNamed

def WellNamedFields (fields : List (String × Value)) : Prop := (Value.object fields).WellNamed

lemma wellNamedFields_nil : WellNamedFields [] := by
  simp [WellNamedFields, Value.WellNamed, Value.keys, fieldsKeys]

lemma wellNamedFields_cons {key : String} {v : Value} {fields : List (String × Value)} :
    WellNamedFields ((key, v) :: fields) ↔ IsName key ∧ v.WellNamed ∧ WellNamedFields fields := by
  simp only [WellNamedFields, Value.WellNamed, Value.keys, fieldsKeys, List.forall_mem_cons,
    List.forall_mem_append]

lemma WellNamedFields.insert {key : String} {v : Value} {fields : List (String × Value)}
    (h : WellNamedFields fields) (hk : IsName key) (hv : v.WellNamed) :
    WellNamedFields (Keyed.insert key v fields) := by
  induction fields with
  | nil => exact wellNamedFields_cons.mpr ⟨hk, hv, h⟩
  | cons field fields ih =>
    obtain ⟨hfield, hw, hfields⟩ := wellNamedFields_cons.mp h
    rw [Keyed.insert]
    split_ifs
    · exact wellNamedFields_cons.mpr ⟨hk, hv, h⟩
    · exact wellNamedFields_cons.mpr ⟨hk, hv, hfields⟩
    · exact wellNamedFields_cons.mpr ⟨hfield, hw, ih hfields⟩

lemma Operator.wellNamed_combine (op : Operator) (v w : Value) : (op.combine v w).WellNamed := by
  intro key hkey
  unfold Operator.combine at hkey
  split at hkey <;> simp [Value.keys] at hkey

namespace Scope

variable {s t : Scope} {name : String} {v : Value}

lemma WellNamed.isName (h : s.WellNamed) (hs : s.has name) : IsName name := by
  obtain ⟨w, hw⟩ := Option.isSome_iff_exists.mp hs
  exact (h name w hw).1

lemma WellNamed.put (h : s.WellNamed) (hn : IsName name) (hv : v.WellNamed) :
    (s.put name v).WellNamed := by
  intro other w hw
  by_cases heq : other = name
  · subst heq
    rw [value?_put_self] at hw
    obtain rfl := Option.some.inj hw
    exact ⟨hn, hv⟩
  · rw [value?_put_of_ne heq] at hw
    exact h other w hw

lemma WellNamed.declare {mutable : Bool} (h : s.WellNamed) (hn : IsName name) (hv : v.WellNamed)
    (ht : s.declare name v mutable = .ok t) : t.WellNamed := by
  obtain ⟨-, rfl⟩ := eq_of_declare ht
  cases mutable <;> exact h.put hn hv

end Scope

namespace Chain

variable {c d : Chain} {name : String} {v : Value}

lemma WellNamed.declare {mutable : Bool} (h : c.WellNamed) (hn : IsName name) (hv : v.WellNamed)
    (hd : c.declare name v mutable = .ok d) : d.WellNamed := by
  obtain ⟨s, hs, rfl⟩ := map_eq_ok.mp hd
  obtain ⟨hinner, houter⟩ := List.forall_mem_cons.mp h
  exact List.forall_mem_cons.mpr ⟨hinner.declare hn hv hs, houter⟩

lemma WellNamed.assign (h : c.WellNamed) (hv : v.WellNamed) (hd : c.assign name v = .ok d) :
    d.WellNamed := by
  obtain ⟨nearer, owner, beyond, hn, -, heq⟩ := exists_of_assign hd
  rw [WellNamed, hn.eq, List.forall_mem_append, List.forall_mem_cons] at h
  rw [WellNamed, heq, List.forall_mem_append, List.forall_mem_cons]
  exact ⟨h.1, h.2.1.put (h.2.1.isName hn.has) hv, h.2.2⟩

end Chain

namespace Evaluation

variable {α β : Type}

def KeepsNames (P : α → Prop) (m : Evaluation α) : Prop :=
  ∀ c : Chain, c.WellNamed → (m.after c).WellNamed ∧ ∀ a d, m c = .ok a d → P a

namespace KeepsNames

variable {P : α → Prop} {Q : β → Prop} {m : Evaluation α} {k : α → Evaluation β} {c d : Chain}

lemma of_ok {a : α} (h : m.KeepsNames P) (hc : c.WellNamed) (hm : m c = .ok a d) :
    P a ∧ d.WellNamed := by
  have hafter := (h c hc).1
  rw [after, hm] at hafter
  exact ⟨(h c hc).2 a d hm, hafter⟩

lemma of_error {e : RuntimeError} (h : m.KeepsNames P) (hc : c.WellNamed)
    (hm : m c = .error e d) : d.WellNamed := by
  have hafter := (h c hc).1
  rwa [after, hm] at hafter

lemma bind (hm : m.KeepsNames P) (hk : ∀ a, P a → (k a).KeepsNames Q) :
    KeepsNames Q (m >>= k) := by
  intro c hc
  cases hr : m c with
  | error e d =>
    rw [after, bind_of_error hr]
    exact ⟨hm.of_error hc hr, fun _ _ h => by cases h⟩
  | ok a d =>
    obtain ⟨ha, hd⟩ := hm.of_ok hc hr
    rw [after, bind_of_ok hr]
    exact hk a ha d hd

end KeepsNames

lemma keepsNames_pure {P : α → Prop} {a : α} (h : P a) : KeepsNames P (pure a) := by
  intro c hc
  refine ⟨hc, ?_⟩
  rintro _ _ ⟨rfl⟩
  exact h

lemma keepsNames_throw (P : α → Prop) (e : RuntimeError) : KeepsNames P (throw e) :=
  fun _ hc => ⟨hc, fun _ _ h => by cases h⟩

lemma keepsNames_lookup (name : String) : (lookup name).KeepsNames Value.WellNamed := by
  intro c hc
  obtain ⟨nearer, owner, beyond, hn⟩ | hnot := exists_nearest name c.scopes
  · obtain ⟨v, hv⟩ := hn.exists_value
    rw [after, lookup_of_nearest hn hv]
    refine ⟨hc, ?_⟩
    rintro _ _ ⟨rfl⟩
    exact (hc owner hn.mem name v hv).2
  · rw [after, lookup_of_forall_not hnot]
    exact ⟨hc, fun _ _ h => by cases h⟩

lemma keepsNames_declare {name : String} {v : Value} (hn : IsName name) (hv : v.WellNamed)
    (mutable : Bool) : (declare name v mutable).KeepsNames Value.WellNamed := by
  intro c hc
  rw [after, declare]
  cases hd : c.declare name v mutable with
  | error e => exact ⟨hc, fun _ _ h => by cases h⟩
  | ok d =>
    refine ⟨hc.declare hn hv hd, ?_⟩
    rintro _ _ ⟨rfl⟩
    exact hv

lemma keepsNames_assign (name : String) {v : Value} (hv : v.WellNamed) :
    (assign name v).KeepsNames Value.WellNamed := by
  intro c hc
  rw [after, assign]
  cases hd : c.assign name v with
  | error e => exact ⟨hc, fun _ _ h => by cases h⟩
  | ok d =>
    refine ⟨hc.assign hv hd, ?_⟩
    rintro _ _ ⟨rfl⟩
    exact hv

end Evaluation

open Evaluation

mutual

lemma Expr.keepsNames : ∀ e : Expr, e.WellNamed → e.evaluate.KeepsNames Value.WellNamed
  | .number x, _ => by
    rw [Expr.evaluate]
    exact keepsNames_pure (by simp [Value.WellNamed, Value.keys])
  | .null, _ => by
    rw [Expr.evaluate]
    exact keepsNames_pure (by simp [Value.WellNamed, Value.keys])
  | .identifier name, _ => by
    rw [Expr.evaluate]
    exact keepsNames_lookup name
  | .binary left op right, h => by
    obtain ⟨hl, hr⟩ := Expr.wellNamed_binary.mp h
    rw [Expr.evaluate]
    exact (left.keepsNames hl).bind fun a _ => (right.keepsNames hr).bind fun b _ =>
      keepsNames_pure (op.wellNamed_combine a b)
  | .assignment target value, h => by
    obtain ⟨-, hv⟩ := Expr.wellNamed_assignment.mp h
    cases target with
    | identifier name =>
      rw [Expr.evaluate]
      exact (value.keepsNames hv).bind fun v hv => keepsNames_assign name hv
    | _ =>
      simp only [Expr.evaluate]
      exact keepsNames_throw _ _
  | .object ps, h => by
    rw [Expr.evaluate]
    exact (properties_keepNames [] ps wellNamedFields_nil h).bind fun fields hf =>
      keepsNames_pure hf

lemma properties_keepNames : ∀ (fields : List (String × Value)) (ps : List (Property Expr)),
    WellNamedFields fields → (Expr.object ps).WellNamed →
    (evaluateProperties fields ps).KeepsNames WellNamedFields
  | fields, [], hf, _ => by
    rw [evaluateProperties]
    exact keepsNames_pure hf
  | fields, ⟨key, some e⟩ :: ps, hf, h => by
    obtain ⟨hk, he, hps⟩ := Expr.wellNamed_object_some.mp h
    rw [evaluateProperties]
    exact (e.keepsNames he).bind fun v hv => properties_keepNames _ ps (hf.insert hk hv) hps
  | fields, ⟨key, none⟩ :: ps, _, h => absurd h Expr.not_wellNamed_object_none

end

lemma Statement.keepsNames (s : Statement) (h : s.WellNamed) :
    s.evaluate.KeepsNames Value.WellNamed := by
  cases s with
  | declaration mutable name initializer =>
    obtain ⟨hn, -, he⟩ := h
    cases initializer with
    | none => exact keepsNames_declare hn (by simp [Value.WellNamed, Value.keys]) mutable
    | some e => exact (e.keepsNames (he e rfl)).bind fun v hv => keepsNames_declare hn hv mutable
  | expression e => exact e.keepsNames h

structure Run.WellNamed (r : Run) : Prop where
  result : ∀ v, r.result = .ok v → v.WellNamed
  emitted : ∀ v ∈ r.emitted, v.WellNamed
  chain : r.chain.WellNamed

lemma runStatements_wellNamed {echo : Echo} {last : Value} {emitted : List Value}
    {ss : List Statement} {c : Chain} (hlast : last.WellNamed)
    (hemitted : ∀ v ∈ emitted, v.WellNamed) (hss : ∀ s ∈ ss, s.WellNamed) (hc : c.WellNamed) :
    (runStatements echo last emitted ss c).WellNamed := by
  induction ss generalizing last emitted c with
  | nil =>
    refine ⟨?_, by simpa [runStatements] using hemitted, hc⟩
    rintro _ ⟨rfl⟩
    exact hlast
  | cons s ss ih =>
    rw [List.forall_mem_cons] at hss
    have hs := s.keepsNames hss.1
    rw [runStatements]
    cases hr : s.evaluate c with
    | error e d => exact ⟨by simp, by simpa using hemitted, hs.of_error hc hr⟩
    | ok v d =>
      obtain ⟨hv, hd⟩ := hs.of_ok hc hr
      refine ih hv ?_ hss.2 hd
      split_ifs
      · exact List.forall_mem_cons.mpr ⟨hv, hemitted⟩
      · exact hemitted

lemma mapError_eq_ok {ε ε' α : Type} {x : Except ε α} {f : ε → ε'} {a : α} :
    x.mapError f = .ok a ↔ x = .ok a := by
  cases x <;> simp [Except.mapError]

namespace Session

def answers (s : Session) : List (String × Echo) → List Answer
  | [] => []
  | (source, echo) :: rest => s.run source echo :: (s.run source echo).session.answers rest

structure Answer.WellNamed (a : Answer) : Prop where
  result : ∀ v, a.result = .ok v → v.WellNamed
  emitted : ∀ v ∈ a.emitted, v.WellNamed
  session : a.session.chain.WellNamed

lemma wellNamed_start : start.chain.WellNamed := by
  have hboolean (b : Bool) : (Value.boolean b).WellNamed := by simp [Value.WellNamed, Value.keys]
  have hempty : Chain.WellNamed ⟨.empty, []⟩ := by
    simp [Chain.WellNamed, Chain.scopes, Scope.WellNamed, Scope.value?, Scope.empty]
  have hglobals : Evaluation.declareGlobals.KeepsNames fun _ => True :=
    (keepsNames_declare (isName_boolean true) (hboolean true) false).bind fun _ _ =>
      (keepsNames_declare (isName_boolean false) (hboolean false) false).bind fun _ _ =>
        keepsNames_pure trivial
  exact (hglobals _ hempty).1

lemma wellNamed_run {s : Session} (hs : s.chain.WellNamed) (source : String) (echo : Echo) :
    (s.run source echo).WellNamed := by
  rw [run]
  cases hp : parse source with
  | error e => exact ⟨by simp, by simp, hs⟩
  | ok p =>
    have hrun : (p.run echo s.chain).WellNamed := runStatements_wellNamed
      (by simp [Value.WellNamed, Value.keys]) (by simp) (wellNamed_of_parse hp) hs
    exact ⟨fun v hv => hrun.result v (mapError_eq_ok.mp hv), hrun.emitted, hrun.chain⟩

lemma wellNamed_answers {s : Session} (hs : s.chain.WellNamed) (runs : List (String × Echo)) :
    ∀ a ∈ s.answers runs, a.WellNamed := by
  induction runs generalizing s with
  | nil => simp [answers]
  | cons first rest ih =>
    obtain ⟨source, echo⟩ := first
    have ha := wellNamed_run hs source echo
    rw [answers, List.forall_mem_cons]
    exact ⟨ha, ih ha.session⟩

/-- In a program that was parsed all names are runs of letters and no reserved words. So are,
whatever sources a session has run, its variables and all keys of its values. -/
theorem names_lexable :
    (∀ source p, parse source = .ok p → p.WellNamed) ∧ start.chain.WellNamed ∧
      ∀ runs, ∀ a ∈ start.answers runs, a.WellNamed := by
  refine ⟨?_, wellNamed_start, ?_⟩
  · intro source p hp
    exact wellNamed_of_parse hp
  · intro runs
    exact wellNamed_answers wellNamed_start runs

theorem names_lexable_nested :
    let source := "var mut é = \x7bb: \x7bc: true\x7d\x7d é = x"
    let a := (start.run source .suppressed).session.run "é" .statements
    (∃ p, parse source = .ok p ∧ p.WellNamed) ∧
      a.emitted = [.object [("b", .object [("c", .boolean true)])]] ∧ a.WellNamed := by
  intro source a
  have hparse : parse source = .ok ⟨[.declaration true "é" (some (.object [⟨"b", some (.object
      [⟨"c", some (.identifier "true")⟩])⟩])), .expression (.assignment (.identifier "é")
      (.identifier "x"))]⟩ := by
    cbv
  have hname : parse "é" = .ok ⟨[.expression (.identifier "é")]⟩ := by cbv
  have hemitted : ((start.run source .suppressed).session.run "é" .statements).emitted =
      [.object [("b", .object [("c", .boolean true)])]] := by
    rw [run_of_parse hname, run_of_parse hparse]
    rfl
  have ha : a ∈ start.answers [(source, .suppressed), ("é", .statements)] := by simp [answers, a]
  exact ⟨⟨_, hparse, names_lexable.1 _ _ hparse⟩, hemitted, names_lexable.2.2 _ a ha⟩

end Session

end Varlet
