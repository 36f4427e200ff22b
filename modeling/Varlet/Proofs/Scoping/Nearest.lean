import Varlet.Proofs.Scoping.Keeping

/-! The nearest binding of a name. It is what a lookup reads and the only thing that an assignment
writes, so both are known once the scopes are taken apart at the one that owns it. -/

namespace Varlet

structure Nearest (name : String) (ss nearer : List Scope) (owner : Scope)
    (beyond : List Scope) : Prop where
  eq : ss = nearer ++ owner :: beyond
  not_has : ∀ s ∈ nearer, ¬ s.has name
  has : owner.has name

section

variable {name : String} {v : Value} {ss nearer beyond : List Scope} {owner : Scope}

lemma exists_nearest (name : String) (ss : List Scope) :
    (∃ nearer owner beyond, Nearest name ss nearer owner beyond) ∨ ∀ s ∈ ss, ¬ s.has name := by
  cases h : ss.find? (·.has name) with
  | none => exact .inr (List.find?_eq_none.mp h)
  | some owner =>
    obtain ⟨hhas, nearer, beyond, heq, hnot⟩ := List.find?_eq_some_iff_append.mp h
    exact .inl ⟨nearer, owner, beyond, heq, by simpa using hnot, hhas⟩

namespace Nearest

lemma find? (h : Nearest name ss nearer owner beyond) : ss.find? (·.has name) = some owner := by
  rw [List.find?_eq_some_iff_append]
  exact ⟨h.has, nearer, beyond, h.eq, by simpa using h.not_has⟩

lemma mem (h : Nearest name ss nearer owner beyond) : owner ∈ ss := by
  rw [h.eq]
  simp

lemma exists_value (h : Nearest name ss nearer owner beyond) :
    ∃ v, owner.value? name = some v :=
  Option.isSome_iff_exists.mp h.has

lemma assignNearest (h : Nearest name ss nearer owner beyond) (v : Value) :
    assignNearest name v ss = (owner.assign name v).map fun s => nearer ++ s :: beyond := by
  obtain ⟨rfl, hnot, hhas⟩ := h
  induction nearer with
  | nil => simp [Varlet.assignNearest, hhas]
  | cons s nearer ih =>
    rw [List.forall_mem_cons] at hnot
    rw [List.cons_append, Varlet.assignNearest, if_neg hnot.1, ih hnot.2]
    cases owner.assign name v <;> rfl

end Nearest

lemma assignNearest_of_forall_not (h : ∀ s ∈ ss, ¬ s.has name) (v : Value) :
    assignNearest name v ss = .error (.undefinedVariable name) := by
  induction ss with
  | nil => rfl
  | cons s ss ih =>
    rw [List.forall_mem_cons] at h
    rw [assignNearest, if_neg h.1, ih h.2]
    rfl

end

namespace Chain

variable {c d : Chain} {name : String} {v : Value} {nearer beyond : List Scope} {owner : Scope}

lemma scopes_injective : Function.Injective scopes := by
  rintro ⟨s, ss⟩ ⟨t, ts⟩ h
  simpa [scopes] using h

lemma map_scopes_assign (c : Chain) (name : String) (v : Value) :
    (c.assign name v).map scopes = assignNearest name v c.scopes := by
  rw [assign, scopes, assignNearest]
  split_ifs
  · cases c.inner.assign name v <;> rfl
  · cases assignNearest name v c.outer <;> rfl

lemma assign_eq_ok_iff : c.assign name v = .ok d ↔ assignNearest name v c.scopes = .ok d.scopes := by
  rw [← map_scopes_assign]
  cases c.assign name v with
  | error e => simp [Except.map]
  | ok e => simp [Except.map, scopes_injective.eq_iff]

lemma assign_eq_error_iff {e : RuntimeError} :
    c.assign name v = .error e ↔ assignNearest name v c.scopes = .error e := by
  rw [← map_scopes_assign]
  cases c.assign name v <;> simp [Except.map]

lemma exists_of_assign (h : c.assign name v = .ok d) :
    ∃ nearer owner beyond, Nearest name c.scopes nearer owner beyond ∧
      owner.isConstant name = false ∧ d.scopes = nearer ++ owner.put name v :: beyond := by
  rw [assign_eq_ok_iff] at h
  obtain ⟨nearer, owner, beyond, hn⟩ | hnot := exists_nearest name c.scopes
  · rw [hn.assignNearest] at h
    obtain ⟨s, hs, heq⟩ := map_eq_ok.mp h
    obtain ⟨hc, rfl⟩ := Scope.eq_of_assign hs
    exact ⟨nearer, owner, beyond, hn, hc, heq.symm⟩
  · rw [assignNearest_of_forall_not hnot] at h
    cases h

lemma exists_assign (hn : Nearest name c.scopes nearer owner beyond)
    (hc : owner.isConstant name = false) (v : Value) :
    ∃ d, c.assign name v = .ok d ∧ d.scopes = nearer ++ owner.put name v :: beyond := by
  have h : assignNearest name v c.scopes = .ok (nearer ++ owner.put name v :: beyond) := by
    simp [hn.assignNearest, Scope.assign, hc, Except.map]
  rw [← map_scopes_assign] at h
  exact map_eq_ok.mp h

lemma assign_of_constant (hn : Nearest name c.scopes nearer owner beyond)
    (hc : owner.isConstant name) (v : Value) :
    c.assign name v = .error (.assignToConstant name) := by
  rw [assign_eq_error_iff, hn.assignNearest, Scope.assign, if_pos hc]
  rfl

lemma assign_of_forall_not (h : ∀ s ∈ c.scopes, ¬ s.has name) (v : Value) :
    c.assign name v = .error (.undefinedVariable name) := by
  rw [assign_eq_error_iff, assignNearest_of_forall_not h]

end Chain

namespace Evaluation

variable {c : Chain} {name : String} {v : Value} {nearer beyond : List Scope} {owner : Scope}

lemma lookup_of_nearest (hn : Nearest name c.scopes nearer owner beyond)
    (hv : owner.value? name = some v) : lookup name c = .ok v c := by
  have howner : c.owner? name = some owner := hn.find?
  simp only [lookup, howner, hv]

lemma lookup_of_forall_not (h : ∀ s ∈ c.scopes, ¬ s.has name) :
    lookup name c = .error (.undefinedVariable name) c := by
  have howner : c.owner? name = none := List.find?_eq_none.mpr h
  simp only [lookup, howner]

end Evaluation

end Varlet
