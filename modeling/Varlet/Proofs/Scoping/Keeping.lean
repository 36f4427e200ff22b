import Varlet.Proofs.Scoping.Changes

namespace Varlet

namespace Scope

def Sound (s : Scope) : Prop := ∀ name, s.isConstant name → s.has name

structure Keeps (s t : Scope) : Prop where
  has : ∀ name, s.has name → t.has name
  isConstant : ∀ name, s.has name → t.isConstant name = s.isConstant name
  value : ∀ name, s.has name → s.isConstant name → t.value? name = s.value? name
  sound : s.Sound → t.Sound

lemma eq_of_declare {s t : Scope} {name : String} {v : Value} {mutable : Bool}
    (h : s.declare name v mutable = .ok t) :
    ¬ s.has name ∧ t = if mutable then s.put name v else (s.put name v).protect name := by
  rw [declare] at h
  split_ifs at h with hbound hm
  · exact ⟨hbound, by rw [if_pos hm, Except.ok.inj h]⟩
  · exact ⟨hbound, by rw [if_neg hm, Except.ok.inj h]⟩

lemma eq_of_assign {s t : Scope} {name : String} {v : Value} (h : s.assign name v = .ok t) :
    s.isConstant name = false ∧ t = s.put name v := by
  rw [assign] at h
  split_ifs at h with hc
  exact ⟨by simpa using hc, (Except.ok.inj h).symm⟩

lemma sound_empty : empty.Sound := by
  intro name h
  exact absurd h (by simp [isConstant, empty])

namespace Keeps

variable {s t u : Scope} {name : String} {v : Value} {mutable : Bool}

lemma refl (s : Scope) : s.Keeps s :=
  ⟨fun _ h => h, fun _ _ => rfl, fun _ _ _ => rfl, fun h => h⟩

instance : Std.Refl Keeps := ⟨refl⟩

lemma trans (h : s.Keeps t) (h' : t.Keeps u) : s.Keeps u where
  has other ho := h'.has other (h.has other ho)
  isConstant other ho := (h'.isConstant other (h.has other ho)).trans (h.isConstant other ho)
  value other ho hc := by
    have hc' : t.isConstant other := by rwa [h.isConstant other ho]
    rw [h'.value other (h.has other ho) hc', h.value other ho hc]
  sound hs := h'.sound (h.sound hs)

lemma of_eq_off (name : String) (hvalue : ∀ other ≠ name, t.value? other = s.value? other)
    (hconstant : ∀ other ≠ name, t.isConstant other = s.isConstant other) (hbound : t.has name)
    (hname : s.has name → s.isConstant name = false ∧ t.isConstant name = false) : s.Keeps t where
  has other ho := by
    by_cases heq : other = name
    · rwa [heq]
    · rwa [Scope.has, hvalue other heq]
  isConstant other ho := by
    by_cases heq : other = name
    · subst heq
      rw [(hname ho).1, (hname ho).2]
    · exact hconstant other heq
  value other ho hc := by
    have heq : other ≠ name := by
      rintro rfl
      simp [(hname ho).1] at hc
    exact hvalue other heq
  sound hs other hc := by
    by_cases heq : other = name
    · rwa [heq]
    · rw [hconstant other heq] at hc
      rw [Scope.has, hvalue other heq]
      exact hs other hc

lemma of_assign (h : s.assign name v = .ok t) : s.Keeps t := by
  obtain ⟨hc, rfl⟩ := eq_of_assign h
  apply of_eq_off name
  · exact fun other hne => value?_put_of_ne hne s v
  · simp
  · simp [Scope.has]
  · simp [hc]

lemma of_declare (h : s.declare name v mutable = .ok t) : s.Keeps t := by
  obtain ⟨hbound, rfl⟩ := eq_of_declare h
  apply of_eq_off name
  · intro other hne
    cases mutable <;> simp [value?_put_of_ne hne]
  · intro other hne
    cases mutable <;> simp [isConstant_protect_of_ne hne]
  · cases mutable <;> simp [Scope.has]
  · exact fun ho => absurd ho hbound

end Keeps

end Scope

lemma map_eq_ok {ε α β : Type} {x : Except ε α} {f : α → β} {b : β} :
    x.map f = .ok b ↔ ∃ a, x = .ok a ∧ f a = b := by
  cases x <;> simp [Except.map]

lemma keeps_assignNearest {name : String} {v : Value} {ss ts : List Scope}
    (h : assignNearest name v ss = .ok ts) : List.Forall₂ Scope.Keeps ss ts := by
  induction ss generalizing ts with
  | nil => cases h
  | cons s ss ih =>
    rw [assignNearest] at h
    split_ifs at h
    · obtain ⟨t, ht, rfl⟩ := map_eq_ok.1 h
      exact .cons (.of_assign ht) (List.forall₂_refl ss)
    · obtain ⟨us, hus, rfl⟩ := map_eq_ok.1 h
      exact .cons (.refl s) (ih hus)

namespace Chain

def Keeps (c d : Chain) : Prop := List.Forall₂ Scope.Keeps c.scopes d.scopes

lemma Keeps.trans {c d e : Chain} (h : c.Keeps d) (h' : d.Keeps e) : c.Keeps e := by
  rw [Keeps, List.forall₂_iff_get] at *
  refine ⟨h.1.trans h'.1, fun i hi hj => ?_⟩
  have hk : i < d.scopes.length := h.1 ▸ hi
  exact (h.2 i hi hk).trans (h'.2 i hk hj)

lemma Change.keeps {c d : Chain} (h : c.Change d) : c.Keeps d := by
  cases h with
  | declare h =>
    obtain ⟨s, hs, rfl⟩ := map_eq_ok.1 h
    exact .cons (.of_declare hs) (List.forall₂_refl c.outer)
  | assign h =>
    rw [Chain.assign] at h
    split_ifs at h
    · obtain ⟨s, hs, rfl⟩ := map_eq_ok.1 h
      exact .cons (.of_assign hs) (List.forall₂_refl c.outer)
    · obtain ⟨ss, hss, rfl⟩ := map_eq_ok.1 h
      exact .cons (.refl c.inner) (keeps_assignNearest hss)

lemma Changes.keeps {c d : Chain} (h : c.Changes d) : c.Keeps d := by
  induction h with
  | refl => exact List.forall₂_refl c.scopes
  | tail _ h ih => exact ih.trans h.keeps

end Chain

end Varlet
