import Varlet.Proofs.Scoping.Footprint
import Varlet.Proofs.Scoping.Nearest

/-! What can be seen of a chain are the nearest bindings of its names. Expressions depend on these
and on nothing else, so for them a chain is as good as a single scope that has them all. -/

namespace Varlet

namespace Keyed

variable {α : Type}

def insertAll (added entries : List (String × α)) : List (String × α) :=
  added.foldr (fun e done => insert e.1 e.2 done) entries

lemma lookup_insertAll (added entries : List (String × α)) (key : String) :
    (insertAll added entries).lookup key = (added.lookup key).or (entries.lookup key) := by
  induction added with
  | nil => rfl
  | cons e added ih =>
    obtain ⟨k, a⟩ := e
    change (insert k a (insertAll added entries)).lookup key = _
    by_cases h : key = k
    · subst h
      simp [lookup_insert_self]
    · simp [lookup_insert_of_ne h, ih, List.lookup_cons, beq_eq_false_iff_ne.mpr h]

lemma lookup_filter (p : String → Bool) (entries : List (String × α)) (key : String) :
    (entries.filter fun e => p e.1).lookup key = if p key then entries.lookup key else none := by
  induction entries with
  | nil => simp
  | cons e entries ih =>
    obtain ⟨k, a⟩ := e
    by_cases h : key = k
    · subst h
      cases hp : p key <;> simp [hp, ih]
    · cases hp : p k <;> simp [hp, ih, List.lookup_cons, beq_eq_false_iff_ne.mpr h]

end Keyed

namespace Scope

def binding? (s : Scope) (name : String) : Option (Value × Bool) :=
  (s.value? name).map fun v => (v, s.isConstant name)

def cover (s t : Scope) : Scope where
  bindings := Keyed.insertAll s.bindings t.bindings
  constants := Keyed.insertAll (s.constants.filter fun e => s.has e.1)
    (t.constants.filter fun e => !s.has e.1)

lemma binding?_put_of_ne {name other : String} (h : other ≠ name) (s : Scope) (v : Value) :
    (s.put name v).binding? other = s.binding? other := by
  rw [binding?, value?_put_of_ne h, isConstant_put, binding?]

lemma isConstant_cover (s t : Scope) (name : String) :
    (s.cover t).isConstant name = if s.has name then s.isConstant name else t.isConstant name := by
  simp only [isConstant, cover, Keyed.lookup_insertAll]
  rw [Keyed.lookup_filter (fun key => s.has key), Keyed.lookup_filter (fun key => !s.has key)]
  cases s.has name <;> simp

lemma binding?_cover (s t : Scope) (name : String) :
    (s.cover t).binding? name = (s.binding? name).or (t.binding? name) := by
  have hvalue : (s.cover t).value? name = (s.value? name).or (t.value? name) :=
    Keyed.lookup_insertAll s.bindings t.bindings name
  rw [binding?, hvalue, isConstant_cover, binding?, binding?]
  cases hv : s.value? name <;> simp [has, hv]

end Scope

namespace Chain

def binding? (c : Chain) (name : String) : Option (Value × Bool) :=
  (c.owner? name).bind fun s => s.binding? name

def flatten (c : Chain) : Scope := c.scopes.foldr Scope.cover .empty

def AgreeOn (names : String → Prop) (c d : Chain) : Prop :=
  ∀ name, names name → c.binding? name = d.binding? name

variable {c d : Chain} {name : String} {v : Value} {b : Value × Bool}

lemma binding?_eq_findSome? (c : Chain) (name : String) :
    c.binding? name = c.scopes.findSome? fun s => s.binding? name := by
  have hscopes (ss : List Scope) : ((ss.find? fun s => s.has name).bind fun s => s.binding? name) =
      ss.findSome? fun s => s.binding? name := by
    induction ss with
    | nil => rfl
    | cons s ss ih =>
      rw [List.find?_cons, List.findSome?_cons, ← ih]
      cases hv : s.value? name <;> simp [Scope.has, Scope.binding?, hv]
  exact hscopes c.scopes

lemma binding?_flatten (c : Chain) (name : String) : c.flatten.binding? name = c.binding? name := by
  have hscopes (ss : List Scope) : (ss.foldr Scope.cover .empty).binding? name =
      ss.findSome? fun s => s.binding? name := by
    induction ss with
    | nil => rfl
    | cons s ss ih =>
      rw [List.foldr_cons, Scope.binding?_cover, ih, List.findSome?_cons]
      cases s.binding? name <;> rfl
  rw [flatten, hscopes, binding?_eq_findSome?]

lemma binding?_single (s : Scope) (name : String) : binding? ⟨s, []⟩ name = s.binding? name := by
  rw [binding?_eq_findSome?, scopes, List.findSome?_singleton]

lemma forall_not_of_binding? (h : c.binding? name = none) : ∀ s ∈ c.scopes, ¬ s.has name := by
  rw [binding?_eq_findSome?, List.findSome?_eq_none_iff] at h
  intro s hs
  simpa [Scope.has, Scope.binding?] using h s hs

lemma exists_nearest_of_binding? (h : c.binding? name = some b) :
    ∃ nearer owner beyond, Nearest name c.scopes nearer owner beyond ∧
      owner.value? name = some b.1 ∧ owner.isConstant name = b.2 := by
  obtain ⟨nearer, owner, beyond, hn⟩ | hnot := exists_nearest name c.scopes
  · refine ⟨nearer, owner, beyond, hn, ?_⟩
    obtain ⟨w, hw⟩ := hn.exists_value
    have howner : c.owner? name = some owner := hn.find?
    rw [binding?, howner, Option.bind_some, Scope.binding?, hw, Option.map_some] at h
    obtain rfl := Option.some.inj h
    exact ⟨hw, rfl⟩
  · have howner : c.owner? name = none := List.find?_eq_none.mpr hnot
    rw [binding?, howner] at h
    cases h

lemma exists_assign_of_binding? {w : Value} (h : c.binding? name = some (w, false)) (v : Value) :
    ∃ d, c.assign name v = .ok d ∧
      ∀ other, d.binding? other = if other = name then some (v, false) else c.binding? other := by
  obtain ⟨nearer, owner, beyond, hn, -, hc⟩ := exists_nearest_of_binding? h
  obtain ⟨d, hd, hscopes⟩ := exists_assign hn hc v
  refine ⟨d, hd, fun other => ?_⟩
  rw [binding?_eq_findSome?, hscopes, binding?_eq_findSome?, hn.eq, List.findSome?_append,
    List.findSome?_append, List.findSome?_cons, List.findSome?_cons]
  split_ifs with heq
  · subst heq
    have hnearer : nearer.findSome? (fun s => s.binding? other) = none := by
      rw [List.findSome?_eq_none_iff]
      intro s hs
      simpa [Scope.has, Scope.binding?] using hn.not_has s hs
    rw [hnearer, Scope.binding?, Scope.value?_put_self, Scope.isConstant_put, hc]
    rfl
  · rw [Scope.binding?_put_of_ne heq]

end Chain

namespace Evaluation

variable {α β : Type} {reads writes names : String → Prop} {m : Evaluation α} {c d : Chain}
variable {name : String}

def result (m : Evaluation α) (c : Chain) : Except RuntimeError α :=
  match m c with
  | .ok a _ => .ok a
  | .error e _ => .error e

def Respects (names : String → Prop) (m : Evaluation α) : Prop :=
  ∀ c d : Chain, c.AgreeOn names d →
    m.result c = m.result d ∧ (m.after c).AgreeOn names (m.after d)

lemma respects_lookup (hname : names name) : (lookup name).Respects names := by
  intro c d h
  have hb := h name hname
  cases hc : c.binding? name with
  | none =>
    rw [result, result, after, after,
      lookup_of_forall_not (Chain.forall_not_of_binding? hc),
      lookup_of_forall_not (Chain.forall_not_of_binding? (hb ▸ hc))]
    exact ⟨rfl, h⟩
  | some b =>
    obtain ⟨_, _, _, hn, hv, -⟩ := Chain.exists_nearest_of_binding? hc
    obtain ⟨_, _, _, hn', hv', -⟩ := Chain.exists_nearest_of_binding? (hb ▸ hc)
    rw [result, result, after, after, lookup_of_nearest hn hv, lookup_of_nearest hn' hv']
    exact ⟨rfl, h⟩

lemma respects_assign (hname : names name) (v : Value) : (assign name v).Respects names := by
  intro c d h
  have hb := h name hname
  simp only [result, after, assign]
  cases hc : c.binding? name with
  | none =>
    rw [Chain.assign_of_forall_not (Chain.forall_not_of_binding? hc),
      Chain.assign_of_forall_not (Chain.forall_not_of_binding? (hb ▸ hc))]
    exact ⟨rfl, h⟩
  | some b =>
    obtain ⟨w, constant⟩ := b
    cases constant with
    | true =>
      obtain ⟨_, _, _, hn, -, hconst⟩ := Chain.exists_nearest_of_binding? hc
      obtain ⟨_, _, _, hn', -, hconst'⟩ := Chain.exists_nearest_of_binding? (hb ▸ hc)
      rw [Chain.assign_of_constant hn hconst, Chain.assign_of_constant hn' hconst']
      exact ⟨rfl, h⟩
    | false =>
      obtain ⟨c', hc', hother⟩ := Chain.exists_assign_of_binding? hc v
      obtain ⟨d', hd', hother'⟩ := Chain.exists_assign_of_binding? (hb ▸ hc) v
      rw [hc', hd']
      refine ⟨rfl, fun other ho => ?_⟩
      rw [hother, hother', h other ho]

lemma Respects.bind {k : α → Evaluation β} (hm : m.Respects names)
    (hk : ∀ a, (k a).Respects names) : Respects names (m >>= k) := by
  intro c d h
  have hstep := hm c d h
  simp only [result, after] at hstep ⊢
  cases hc : m c with
  | ok a c' =>
    cases hd : m d with
    | ok b d' =>
      simp only [hc, hd] at hstep
      obtain ⟨⟨rfl⟩, hagree⟩ := hstep
      rw [bind_of_ok hc, bind_of_ok hd]
      exact hk a c' d' hagree
    | error e d' => simp [hc, hd] at hstep
  | error e c' =>
    cases hd : m d with
    | ok b d' => simp [hc, hd] at hstep
    | error e' d' =>
      simp only [hc, hd] at hstep
      obtain ⟨⟨rfl⟩, hagree⟩ := hstep
      rw [bind_of_error hc, bind_of_error hd]
      exact ⟨rfl, hagree⟩

lemma Uses.respects (h : m.Uses reads writes) (hr : ∀ name, reads name → names name)
    (hw : ∀ name, writes name → names name) : m.Respects names := by
  induction h with
  | pure a => exact fun _ _ hagree => ⟨rfl, hagree⟩
  | throw e => exact fun _ _ hagree => ⟨rfl, hagree⟩
  | lookup hname => exact respects_lookup (hr _ hname)
  | assign v hname => exact respects_assign (hw _ hname) v
  | bind _ _ ihm ihk => exact ihm.bind ihk

end Evaluation

theorem Expr.evaluate_flatten (c : Chain) (e : Expr) :
    let flat : Chain := ⟨c.flatten, []⟩
    (∀ name, flat.binding? name = c.binding? name) ∧
      e.evaluate.result flat = e.evaluate.result c ∧ (e.evaluate.after flat).outer = [] ∧
      ∀ name, (e.evaluate.after flat).binding? name = (e.evaluate.after c).binding? name := by
  intro flat
  have hflat (name : String) : flat.binding? name = c.binding? name := by
    rw [Chain.binding?_single, Chain.binding?_flatten]
  have hrespects : e.evaluate.Respects fun _ => True :=
    e.uses.respects (fun _ _ => trivial) fun _ _ => trivial
  obtain ⟨hresult, hafter⟩ := hrespects flat c fun name _ => hflat name
  have hlength := (e.tame flat).keeps.length_eq
  refine ⟨hflat, hresult, ?_, fun name => hafter name trivial⟩
  simpa [Chain.scopes, flat] using hlength

end Varlet
