import Varlet.Proofs.Scoping.Flattening
import Varlet.Proofs.Scoping.Restoring
import Varlet.Proofs.Values.FiniteMaps

/-! Object literals without assignments: each of their properties gives what it gives on its own,
and of several under one key the last one counts. -/

namespace Varlet

def Property.evaluate (p : Property Expr) : Evaluation Value :=
  match p.value with
  | some e => e.evaluate
  | none => Evaluation.lookup p.key

def underKey (key : String) (ps : List (Property Expr)) : List (Property Expr) :=
  ps.filter fun p => p.key = key

/-- The same properties in another order, in which those under one key keep theirs. -/
def Reorders (qs ps : List (Property Expr)) : Prop :=
  qs.Perm ps ∧ ∀ key, underKey key qs = underKey key ps

namespace Evaluation

variable {α β : Type} {m : Evaluation α} {c : Chain}

lemma after_bind_of_forall {k : α → Evaluation β} (hm : m.after c = c)
    (hk : ∀ a, (k a).after c = c) : Evaluation.after (m >>= k) c = c := by
  cases hr : m c with
  | error e d =>
    rw [after_of_error hr] at hm
    exact (after_of_error (bind_of_error hr k)).trans hm
  | ok a d =>
    obtain rfl := (after_of_ok hr).symm.trans hm
    rw [after, bind_of_ok hr]
    exact hk a

lemma result_bind {k : α → Evaluation β} (hm : m.after c = c) :
    Evaluation.result (m >>= k) c = m.result c >>= fun a => (k a).result c := by
  cases hr : m c with
  | error e d => simp only [result, bind_of_error hr, hr]; rfl
  | ok a d =>
    obtain rfl := (after_of_ok hr).symm.trans hm
    simp only [result, bind_of_ok hr, hr]
    rfl

lemma Uses.after_eq {reads writes : String → Prop} (h : m.Uses reads writes)
    (hw : ∀ name, ¬ writes name) (c : Chain) : m.after c = c := by
  induction h with
  | pure a => rfl
  | throw e => rfl
  | lookup _ => exact after_lookup _ c
  | assign v hname => exact absurd hname (hw _)
  | bind _ _ ihm ihk => exact after_bind_of_forall ihm ihk

end Evaluation

namespace Forest

open Evaluation

lemma evaluate?_of_after_eq {α : Type} {m : Evaluation α} {f : Forest} {id : ℕ} {c : Chain}
    (hc : f.chain? id = some c) (hm : m.after c = c) :
    f.evaluate? id m = some (m.result c, f) := by
  cases hr : m c with
  | error e d =>
    obtain rfl := (after_of_error hr).symm.trans hm
    rw [evaluate?_of_error hc hr, update_chain hc, result, hr]
  | ok a d =>
    obtain rfl := (after_of_ok hr).symm.trans hm
    rw [evaluate?_of_ok hc hr, update_chain hc, result, hr]

end Forest

section

variable {c : Chain} {fields : List (String × Value)} {ps qs : List (Property Expr)}

lemma underKey_cons_self (p : Property Expr) (ps : List (Property Expr)) :
    underKey p.key (p :: ps) = p :: underKey p.key ps :=
  List.filter_cons_of_pos (by simp)

lemma underKey_cons_of_ne {p : Property Expr} {key : String} (h : p.key ≠ key)
    (ps : List (Property Expr)) : underKey key (p :: ps) = underKey key ps :=
  List.filter_cons_of_neg (by simpa using h)

lemma mem_underKey {p : Property Expr} {key : String} :
    p ∈ underKey key ps ↔ p ∈ ps ∧ p.key = key := by
  simp [underKey]

lemma parts_subset_of_mem {key : String} {e : Expr} (h : ⟨key, some e⟩ ∈ ps) :
    e.parts ⊆ propertiesParts ps := by
  induction ps with
  | nil => cases h
  | cons p ps ih =>
    rcases List.mem_cons.mp h with rfl | hmem
    · exact List.subset_append_left _ _
    · obtain ⟨_, _ | d⟩ := p
      · exact ih hmem
      · exact List.subset_append_of_subset_right _ (ih hmem)

lemma evaluateProperties_cons (fields : List (String × Value)) (p : Property Expr)
    (ps : List (Property Expr)) : evaluateProperties fields (p :: ps) =
      p.evaluate >>= fun v => evaluateProperties (Keyed.insert p.key v fields) ps := by
  obtain ⟨key, _ | e⟩ := p <;> rw [evaluateProperties] <;> rfl

lemma result_cons {p : Property Expr} {v : Value} (hp : p.evaluate.after c = c)
    (hv : p.evaluate.result c = .ok v) (fields : List (String × Value)) :
    (evaluateProperties fields (p :: ps)).result c =
      (evaluateProperties (Keyed.insert p.key v fields) ps).result c := by
  rw [evaluateProperties_cons, Evaluation.result_bind hp, hv]
  rfl

lemma exists_properties (hps : ∀ p ∈ ps, p.evaluate.after c = c)
    (hok : ∀ p ∈ ps, ∃ v, p.evaluate.result c = .ok v) (hinc : Keyed.Increasing fields) :
    ∃ done, (evaluateProperties fields ps).result c = .ok done ∧ Keyed.Increasing done ∧
      ∀ key, done.lookup key = (underKey key ps).getLast?.elim (fields.lookup key)
        fun p => (p.evaluate.result c).toOption := by
  induction ps generalizing fields with
  | nil =>
    rw [evaluateProperties]
    exact ⟨fields, rfl, hinc, fun key => rfl⟩
  | cons p ps ih =>
    obtain ⟨hp, hps⟩ := List.forall_mem_cons.mp hps
    obtain ⟨⟨v, hv⟩, hok⟩ := List.forall_mem_cons.mp hok
    obtain ⟨done, hdone, hinc', hlookup⟩ := ih hps hok (hinc.insert p.key v)
    refine ⟨done, by rw [result_cons hp hv, hdone], hinc', fun key => ?_⟩
    -- what `p` put under its key stays there unless a later property has the same key
    rw [hlookup]
    by_cases hkey : p.key = key
    · subst hkey
      rw [underKey_cons_self, List.getLast?_cons, Keyed.lookup_insert_self]
      cases (underKey p.key ps).getLast? with
      | none => simp [hv, Except.toOption]
      | some q => rfl
    · rw [underKey_cons_of_ne hkey, Keyed.lookup_insert_of_ne (Ne.symm hkey)]

lemma properties_of_error {front back : List (Property Expr)} {p : Property Expr}
    {e : RuntimeError} (hps : ∀ q ∈ front ++ p :: back, q.evaluate.after c = c)
    (hfront : ∀ q ∈ front, ∃ v, q.evaluate.result c = .ok v)
    (hp : p.evaluate.result c = .error e) :
    (evaluateProperties fields (front ++ p :: back)).result c = .error e := by
  induction front generalizing fields with
  | nil =>
    rw [List.nil_append, evaluateProperties_cons, Evaluation.result_bind (hps p (by simp)), hp]
    rfl
  | cons q front ih =>
    obtain ⟨hq, hps⟩ := List.forall_mem_cons.mp hps
    obtain ⟨⟨v, hv⟩, hfront⟩ := List.forall_mem_cons.mp hfront
    rw [List.cons_append, result_cons hq hv]
    exact ih hps hfront

lemma forall_ok_or_exists_error {α β ε : Type} (f : α → Except ε β) (as : List α) :
    (∀ a ∈ as, ∃ b, f a = .ok b) ∨ ∃ front a back e, as = front ++ a :: back ∧
      (∀ d ∈ front, ∃ b, f d = .ok b) ∧ f a = .error e := by
  induction as with
  | nil => exact .inl (by simp)
  | cons a as ih =>
    cases ha : f a with
    | error e => exact .inr ⟨[], a, as, e, rfl, by simp, ha⟩
    | ok b =>
      obtain hok | ⟨front, d, back, e, rfl, hfront, hd⟩ := ih
      · exact .inl (List.forall_mem_cons.mpr ⟨⟨b, ha⟩, hok⟩)
      · exact .inr ⟨a :: front, d, back, e, rfl, List.forall_mem_cons.mpr ⟨⟨b, ha⟩, hfront⟩, hd⟩

lemma result_object (ps : List (Property Expr)) (c : Chain) :
    (Expr.object ps).evaluate.result c = ((evaluateProperties [] ps).result c).map .object := by
  rw [Expr.evaluate]
  cases hr : evaluateProperties [] ps c with
  | error e d =>
    rw [Evaluation.result, Evaluation.bind_of_error hr, Evaluation.result, hr]
    rfl
  | ok fields d =>
    rw [Evaluation.result, Evaluation.bind_of_ok hr, Evaluation.result, hr]
    rfl

lemma exists_object (hps : ∀ p ∈ ps, p.evaluate.after c = c)
    (hok : ∀ p ∈ ps, ∃ v, p.evaluate.result c = .ok v) :
    ∃ fields, (Expr.object ps).evaluate.result c = .ok (.object fields) ∧
      Keyed.Increasing fields ∧ ∀ key w, (key, w) ∈ fields ↔
        ∃ p, (underKey key ps).getLast? = some p ∧ p.evaluate.result c = .ok w := by
  obtain ⟨fields, hfields, hinc, hlookup⟩ := exists_properties hps hok List.Pairwise.nil
  refine ⟨fields, by rw [result_object, hfields]; rfl, hinc, fun key w => ?_⟩
  rw [← hinc.lookup_eq_some_iff, hlookup]
  cases (underKey key ps).getLast? with
  | none => simp
  | some p => cases hr : p.evaluate.result c <;> simp [hr, Except.toOption]

lemma object_of_error {front back : List (Property Expr)} {p : Property Expr} {e : RuntimeError}
    (hps : ∀ q ∈ ps, q.evaluate.after c = c) (heq : ps = front ++ p :: back)
    (hfront : ∀ q ∈ front, ∃ v, q.evaluate.result c = .ok v)
    (hp : p.evaluate.result c = .error e) : (Expr.object ps).evaluate.result c = .error e := by
  subst heq
  rw [result_object, properties_of_error hps hfront hp]
  rfl

lemma forall_ok_of_object {v : Value} (hps : ∀ p ∈ ps, p.evaluate.after c = c)
    (hv : (Expr.object ps).evaluate.result c = .ok v) :
    ∀ p ∈ ps, ∃ w, p.evaluate.result c = .ok w := by
  obtain hok | ⟨front, p, back, e, heq, hfront, hp⟩ :=
    forall_ok_or_exists_error (fun p : Property Expr => p.evaluate.result c) ps
  · exact hok
  · cases hv.symm.trans (object_of_error hps heq hfront hp)

lemma exists_error_of_object {e : RuntimeError} (hps : ∀ p ∈ ps, p.evaluate.after c = c)
    (he : (Expr.object ps).evaluate.result c = .error e) :
    ∃ front p back, ps = front ++ p :: back ∧
      (∀ q ∈ front, ∃ v, q.evaluate.result c = .ok v) ∧ p.evaluate.result c = .error e := by
  obtain hok | ⟨front, p, back, e', heq, hfront, hp⟩ :=
    forall_ok_or_exists_error (fun p : Property Expr => p.evaluate.result c) ps
  · obtain ⟨fields, hfields, -⟩ := exists_object hps hok
    cases he.symm.trans hfields
  · obtain rfl := Except.error.inj (he.symm.trans (object_of_error hps heq hfront hp))
    exact ⟨front, p, back, heq, hfront, hp⟩

lemma mem_keys_iff (hok : ∀ p ∈ ps, ∃ v, p.evaluate.result c = .ok v)
    (hfields : ∀ key w, (key, w) ∈ fields ↔
      ∃ p, (underKey key ps).getLast? = some p ∧ p.evaluate.result c = .ok w) (key : String) :
    key ∈ fields.map Prod.fst ↔ key ∈ ps.map Property.key := by
  simp only [List.mem_map, Prod.exists, exists_and_right, exists_eq_right]
  constructor
  · rintro ⟨w, hw⟩
    obtain ⟨p, hlast, -⟩ := (hfields key w).mp hw
    exact ⟨p, mem_underKey.mp (List.mem_of_getLast? hlast)⟩
  · rintro ⟨p, hp⟩
    have hne : underKey key ps ≠ [] := List.ne_nil_of_mem (mem_underKey.mpr hp)
    have hlast := List.getLast?_eq_some_getLast hne
    obtain ⟨hmem, -⟩ := mem_underKey.mp (List.mem_of_getLast? hlast)
    obtain ⟨w, hw⟩ := hok _ hmem
    exact ⟨w, (hfields key w).mpr ⟨_, hlast, hw⟩⟩

lemma object_of_reorders {v : Value} (hps : ∀ p ∈ ps, p.evaluate.after c = c)
    (hv : (Expr.object ps).evaluate.result c = .ok v) (h : Reorders qs ps) :
    (Expr.object qs).evaluate.result c = .ok v := by
  have hok := forall_ok_of_object hps hv
  have hqs : ∀ q ∈ qs, q ∈ ps := fun q => h.1.mem_iff.mp
  obtain ⟨fields, hfields, hinc, hmem⟩ := exists_object hps hok
  obtain ⟨others, hothers, hinc', hmem'⟩ :=
    exists_object (fun q hq => hps q (hqs q hq)) fun q hq => hok q (hqs q hq)
  have heq : others = fields := hinc'.eq_of_lookup hinc fun key => Option.ext fun w => by
    rw [hinc'.lookup_eq_some_iff, hmem', h.2, ← hmem, ← hinc.lookup_eq_some_iff]
  rw [hothers, heq, ← hfields, hv]

lemma Property.after_evaluate (h : ∀ target value, .assignment target value ∉ propertiesParts ps)
    {p : Property Expr} (hp : p ∈ ps) (c : Chain) : p.evaluate.after c = c := by
  obtain ⟨key, _ | e⟩ := p
  · exact Evaluation.after_lookup key c
  · refine (e.uses_of_subset (parts_subset_of_mem hp)).after_eq ?_ c
    rintro name ⟨value, hmem⟩
    exact h _ value hmem

lemma Expr.after_object (h : ∀ target value, .assignment target value ∉ propertiesParts ps)
    (c : Chain) : (Expr.object ps).evaluate.after c = c := by
  refine (Expr.object ps).uses.after_eq ?_ c
  rintro name ⟨value, hmem⟩
  rw [Expr.parts, List.mem_cons] at hmem
  exact h _ value (hmem.resolve_left nofun)

end

/-- An object literal without assignments changes no scope. It succeeds if each of its properties
does on its own, with the last one under each key, in whatever order the keys come; otherwise it
fails as the first property does that fails on its own. -/
theorem Expr.evaluate_object_pure (ps : List (Property Expr))
    (h : ∀ target value, .assignment target value ∉ propertiesParts ps) (c : Chain) :
    let literal : Expr := .object ps
    literal.evaluate.after c = c ∧
    (∀ f id, Forest.chain? f id = some c →
      f.evaluate? id literal.evaluate = some (literal.evaluate.result c, f)) ∧
    ((∃ v, literal.evaluate.result c = .ok v) ↔ ∀ p ∈ ps, ∃ v, p.evaluate.result c = .ok v) ∧
    (∀ v, literal.evaluate.result c = .ok v →
      (∃ fields, v = .object fields ∧ Keyed.Increasing fields ∧
        (∀ key, key ∈ fields.map Prod.fst ↔ key ∈ ps.map Property.key) ∧
        ∀ key w, (key, w) ∈ fields ↔ ∃ p, (underKey key ps).getLast? = some p ∧
          p.evaluate.result c = .ok w) ∧
      ∀ qs, Reorders qs ps → (Expr.object qs).evaluate.result c = .ok v) ∧
    ∀ e, literal.evaluate.result c = .error e ↔ ∃ front p back, ps = front ++ p :: back ∧
      (∀ q ∈ front, ∃ v, q.evaluate.result c = .ok v) ∧ p.evaluate.result c = .error e := by
  intro literal
  have hafter : literal.evaluate.after c = c := after_object h c
  have hps : ∀ p ∈ ps, p.evaluate.after c = c := fun p hp => p.after_evaluate h hp c
  refine ⟨hafter, fun f id hc => Forest.evaluate?_of_after_eq hc hafter, ⟨?_, ?_⟩, ?_, ?_⟩
  · rintro ⟨v, hv⟩
    exact forall_ok_of_object hps hv
  · intro hok
    obtain ⟨fields, hfields, -⟩ := exists_object hps hok
    exact ⟨_, hfields⟩
  · intro v hv
    have hok := forall_ok_of_object hps hv
    obtain ⟨fields, hfields, hinc, hmem⟩ := exists_object hps hok
    obtain rfl := Except.ok.inj (hv.symm.trans hfields)
    exact ⟨⟨fields, rfl, hinc, mem_keys_iff hok hmem, hmem⟩, fun qs => object_of_reorders hps hv⟩
  · intro e
    constructor
    · exact exists_error_of_object hps
    · rintro ⟨front, p, back, heq, hfront, hp⟩
      exact object_of_error hps heq hfront hp

theorem Expr.evaluate_object_pure_duplicate :
    let ps : List (Property Expr) :=
      [⟨"b", some (.identifier "x")⟩, ⟨"x", none⟩, ⟨"b", some (.object [⟨"y", none⟩])⟩]
    let qs : List (Property Expr) :=
      [⟨"x", none⟩, ⟨"b", some (.identifier "x")⟩, ⟨"b", some (.object [⟨"y", none⟩])⟩]
    let c : Chain := ⟨⟨[("y", .null)], []⟩, [⟨[("x", .boolean true)], [("x", ())]⟩]⟩
    let v : Value := .object [("b", .object [("y", .null)]), ("x", .boolean true)]
    let f : Forest := ⟨[⟨1, some 0, c.inner⟩, ⟨0, none, ⟨[("x", .boolean true)], [("x", ())]⟩⟩], 2⟩
    (∀ target value, .assignment target value ∉ propertiesParts ps) ∧ Reorders qs ps ∧
      f.evaluate? 1 (Expr.object ps).evaluate = some (.ok v, f) ∧
      (Expr.object qs).evaluate.result c = .ok v := by
  intro ps qs c v f
  have hpure : ∀ target value, .assignment target value ∉ propertiesParts ps := by
    simp [ps, propertiesParts, Expr.parts]
  have hreorders : Reorders qs ps := by
    refine ⟨List.Perm.swap _ _ _, fun key => ?_⟩
    by_cases hb : "b" = key
    · subst hb
      rfl
    · simp [underKey, qs, ps, List.filter_cons, hb]
  have hv : (Expr.object ps).evaluate.result c = .ok v := rfl
  obtain ⟨-, hforest, -, hvalue, -⟩ := evaluate_object_pure ps hpure c
  refine ⟨hpure, hreorders, ?_, (hvalue v hv).2 qs hreorders⟩
  rw [hforest f 1 rfl, hv]

end Varlet
