import Varlet.Proofs.Running.Noninterference
import Varlet.Proofs.Scoping.Constants
import Varlet.Proofs.Scoping.Footprint
import Varlet.Proofs.Scoping.Nearest

namespace Varlet

namespace Scope

variable {s t u : Scope} {name : String}

lemma Alike.refl (s : Scope) : s.Alike s := ⟨fun _ => rfl, fun _ => rfl⟩

lemma Alike.trans (h : s.Alike t) (h' : t.Alike u) : s.Alike u :=
  ⟨fun name => (h.has name).trans (h'.has name),
    fun name => (h.isConstant name).trans (h'.isConstant name)⟩

lemma alike_put (h : s.has name) (v : Value) : s.Alike (s.put name v) where
  has other := by
    rw [has_put]
    by_cases heq : other = name
    · rw [heq, h, Bool.or_true]
    · rw [beq_eq_false_iff_ne.mpr heq, Bool.false_or]
  isConstant other := (isConstant_put s name other v).symm

@[simp] lemma has_protect (s : Scope) (name other : String) :
    (s.protect name).has other = s.has other := rfl

end Scope

/-- The scopes are alike. Where a value is another one, its name may be written, it is no constant,
and none of the scopes before has the name. -/
inductive Overwrites : (String → Prop) → List Scope → List Scope → Prop
  | nil {writes} : Overwrites writes [] []
  | cons {writes s t ss ts} : s.Alike t →
      (∀ name, t.value? name ≠ s.value? name → writes name ∧ s.isConstant name = false) →
      Overwrites (fun name => writes name ∧ ¬ s.has name) ss ts →
      Overwrites writes (s :: ss) (t :: ts)

namespace Overwrites

variable {writes others : String → Prop} {ss ts us : List Scope} {s t : Scope} {name : String}

lemma mono (h : Overwrites writes ss ts) (hw : ∀ name, writes name → others name) :
    Overwrites others ss ts := by
  induction h generalizing others with
  | nil => exact .nil
  | cons halike hvalue _ ih =>
    refine .cons halike (fun name hne => ?_) (ih fun name hname => ?_)
    · exact ⟨hw name (hvalue name hne).1, (hvalue name hne).2⟩
    · exact ⟨hw name hname.1, hname.2⟩

lemma refl (writes : String → Prop) (ss : List Scope) : Overwrites writes ss ss := by
  induction ss generalizing writes with
  | nil => exact .nil
  | cons s ss ih => exact .cons (.refl s) (fun name hne => absurd rfl hne) (ih _)

lemma trans (h : Overwrites writes ss ts) (h' : Overwrites writes ts us) :
    Overwrites writes ss us := by
  induction h generalizing us with
  | nil => exact h'
  | @cons writes s t ss ts halike hvalue _ ih =>
    cases h' with
    | @cons _ _ u _ us halike' hvalue' hrest =>
      refine .cons (halike.trans halike') (fun name hne => ?_) (ih (hrest.mono ?_))
      · by_cases heq : t.value? name = s.value? name
        · rw [halike.isConstant]
          exact hvalue' name (heq ▸ hne)
        · exact hvalue name heq
      · intro name hname
        rwa [halike.has]

lemma of_nearest {nearer beyond : List Scope} {owner : Scope}
    (hn : Nearest name ss nearer owner beyond) (hc : owner.isConstant name = false)
    (hw : writes name) (v : Value) :
    Overwrites writes ss (nearer ++ owner.put name v :: beyond) := by
  obtain ⟨rfl, hnot, hhas⟩ := hn
  induction nearer generalizing writes with
  | nil =>
    refine .cons (Scope.alike_put hhas v) (fun other hne => ?_) (refl _ beyond)
    obtain rfl : other = name := by
      by_contra h
      exact hne (Scope.value?_put_of_ne h owner v)
    exact ⟨hw, hc⟩
  | cons s nearer ih =>
    rw [List.forall_mem_cons] at hnot
    exact .cons (.refl s) (fun other hne => absurd rfl hne) (ih ⟨hw, hnot.1⟩ hnot.2)

lemma at_append {ss' ts' : List Scope} (hlen : ss.length = ts.length)
    (h : Overwrites writes (ss ++ s :: ss') (ts ++ t :: ts')) :
    s.Alike t ∧ ∀ name, t.value? name ≠ s.value? name →
      writes name ∧ s.isConstant name = false ∧ ∀ u ∈ ss, ¬ u.has name := by
  induction ss generalizing writes ts with
  | nil =>
    obtain rfl := List.length_eq_zero_iff.mp hlen.symm
    cases h with
    | cons halike hvalue _ =>
      exact ⟨halike, fun name hne => ⟨(hvalue name hne).1, (hvalue name hne).2, by simp⟩⟩
  | cons u ss ih =>
    obtain ⟨w, ts, rfl⟩ := List.exists_cons_of_length_eq_add_one hlen.symm
    cases h with
    | cons _ _ hrest =>
      obtain ⟨halike, hvalue⟩ := ih (Nat.succ_inj.mp hlen) hrest
      refine ⟨halike, fun name hne => ?_⟩
      obtain ⟨⟨hw, hu⟩, hc, hss⟩ := hvalue name hne
      exact ⟨hw, hc, List.forall_mem_cons.mpr ⟨hu, hss⟩⟩

end Overwrites

namespace Evaluation

variable {α β : Type} {reads writes : String → Prop} {m : Evaluation α} {c d : Chain}

lemma overwrites_assign {name : String} (hw : writes name) (v : Value) (c : Chain) :
    Overwrites writes c.scopes ((assign name v).after c).scopes := by
  cases h : c.assign name v with
  | error e =>
    simp only [after, assign, h]
    exact .refl _ _
  | ok d =>
    obtain ⟨nearer, owner, beyond, hn, hc, hd⟩ := Chain.exists_of_assign h
    simp only [after, assign, h, hd]
    exact .of_nearest hn hc hw v

lemma Uses.overwrites (h : m.Uses reads writes) (c : Chain) :
    Overwrites writes c.scopes (m.after c).scopes := by
  induction h generalizing c with
  | pure a => exact .refl _ _
  | throw e => exact .refl _ _
  | lookup _ =>
    rw [after_lookup]
    exact .refl _ _
  | assign v hw => exact overwrites_assign hw v c
  | @bind _ _ m k _ _ ihm ihk =>
    cases hr : m c with
    | error e d =>
      rw [after_of_error (bind_of_error hr k)]
      exact after_of_error hr ▸ ihm c
    | ok a d =>
      rw [after, bind_of_ok hr]
      exact (after_of_ok hr ▸ ihm c).trans (ihk a d)

lemma bind_eq_error {k : α → Evaluation β} {e : RuntimeError} (h : (m >>= k) c = .error e d) :
    m c = .error e d ∨ ∃ a c', m c = .ok a c' ∧ k a c' = .error e d := by
  cases hm : m c with
  | error err d' =>
    rw [bind_of_error hm] at h
    obtain ⟨rfl, rfl⟩ := EStateM.Result.error.inj h
    exact .inl rfl
  | ok a c' =>
    rw [bind_of_ok hm] at h
    exact .inr ⟨a, c', rfl, h⟩

lemma declare_eq_error {name : String} {v : Value} {mutable : Bool} {e : RuntimeError}
    (h : declare name v mutable c = .error e d) : d = c := by
  rw [declare] at h
  split at h
  · cases h
  · exact (EStateM.Result.error.inj h).2.symm

lemma assign_eq_error {name : String} {v : Value} {e : RuntimeError}
    (h : assign name v c = .error e d) : d = c := by
  rw [assign] at h
  split at h
  · cases h
  · exact (EStateM.Result.error.inj h).2.symm

end Evaluation

namespace Chain

/-- The innermost scope has the added names besides its own, and those of them that are not mutable
are constant. What was there before keeps its constancy, and its value unless it is written. -/
structure Extends (writes : String → Prop) (added : List (String × Bool)) (c d : Chain) : Prop where
  has : ∀ name, d.inner.has name ↔ c.inner.has name ∨ ∃ mutable, (name, mutable) ∈ added
  isConstant : ∀ name, d.inner.isConstant name ↔ c.inner.isConstant name ∨ (name, false) ∈ added
  added : ∀ name mutable, (name, mutable) ∈ added →
    ¬ c.inner.has name ∧ d.inner.isConstant name = !mutable
  value : ∀ name, c.inner.has name → d.inner.value? name ≠ c.inner.value? name →
    writes name ∧ c.inner.isConstant name = false
  outer : Overwrites (fun name => writes name ∧ ¬ c.inner.has name) c.outer d.outer

namespace Extends

variable {writes : String → Prop} {added others : List (String × Bool)} {c d e : Chain}
variable {name : String} {v : Value} {mutable : Bool}

lemma of_overwrites (h : Overwrites writes c.scopes d.scopes) : c.Extends writes [] d := by
  cases h with
  | cons halike hvalue houter =>
    refine ⟨fun name => ?_, fun name => ?_, by simp, fun name _ => hvalue name, houter⟩
    · simp [halike.has]
    · simp [halike.isConstant]

lemma refl (writes : String → Prop) (c : Chain) : c.Extends writes [] c :=
  of_overwrites (.refl writes c.scopes)

lemma of_declare (hc : c.inner.Sound) (h : c.declare name v mutable = .ok d) :
    c.Extends writes [(name, mutable)] d := by
  obtain ⟨t, ht, rfl⟩ := map_eq_ok.mp h
  obtain ⟨hbound, rfl⟩ := Scope.eq_of_declare ht
  have hconstant : c.inner.isConstant name = false := by
    by_contra hconst
    exact hbound (hc name (by simpa using hconst))
  refine ⟨fun other => ?_, fun other => ?_, ?_, fun other hother hne => ?_, .refl _ _⟩
  · cases mutable <;> simp [Scope.has_put, or_comm]
  · cases mutable <;> simp [Scope.isConstant_protect, or_comm]
  · rintro _ _ (_ | ⟨_, ⟨⟩⟩)
    refine ⟨hbound, ?_⟩
    cases mutable <;> simp [hconstant]
  · have hother' : other ≠ name := by
      rintro rfl
      exact hbound hother
    cases mutable <;> simp [Scope.value?_put_of_ne hother'] at hne

lemma isConstant_of_has (h : c.Extends writes added d) (hname : c.inner.has name) :
    d.inner.isConstant name = c.inner.isConstant name := by
  have hnot : (name, false) ∉ added := fun hmem => (h.added name false hmem).1 hname
  rw [Bool.eq_iff_iff, h.isConstant]
  simp [hnot]

lemma trans (h : c.Extends writes added d) (h' : d.Extends writes others e) :
    c.Extends writes (added ++ others) e := by
  have hkeeps (name : String) (hname : c.inner.has name) : d.inner.has name :=
    (h.has name).mpr (.inl hname)
  refine ⟨fun name => ?_, fun name => ?_, fun name mutable hmem => ?_, fun name hname hne => ?_, ?_⟩
  · simp only [h'.has, h.has, List.mem_append, exists_or, or_assoc]
  · simp only [h'.isConstant, h.isConstant, List.mem_append, or_assoc]
  · rcases List.mem_append.mp hmem with hmem | hmem
    · obtain ⟨hnot, hconstant⟩ := h.added name mutable hmem
      have hhas : d.inner.has name := (h.has name).mpr (.inr ⟨mutable, hmem⟩)
      exact ⟨hnot, (h'.isConstant_of_has hhas).trans hconstant⟩
    · obtain ⟨hnot, hconstant⟩ := h'.added name mutable hmem
      exact ⟨fun hname => hnot (hkeeps name hname), hconstant⟩
  · by_cases heq : d.inner.value? name = c.inner.value? name
    · rw [← h.isConstant_of_has hname]
      exact h'.value name (hkeeps name hname) (heq ▸ hne)
    · exact h.value name hname heq
  · refine h.outer.trans (h'.outer.mono fun name hw => ?_)
    exact ⟨hw.1, fun hname => hw.2 (hkeeps name hname)⟩

end Extends

end Chain

open Evaluation

lemma Expr.extends_after {e : Expr} {nodes : List Expr} (he : e.parts ⊆ nodes) (c : Chain) :
    c.Extends (AssignedIn nodes) [] (e.evaluate.after c) :=
  .of_overwrites ((e.uses_of_subset he).overwrites c)

namespace Statement

def declares : Statement → List (String × Bool)
  | .declaration mutable name _ => [(name, mutable)]
  | .expression _ => []

variable {s : Statement} {nodes : List Expr} {c d : Chain}

lemma extends_of_ok {v : Value} (hs : ∀ e ∈ s.expression?, e.parts ⊆ nodes) (hc : c.inner.Sound)
    (h : s.evaluate c = .ok v d) : c.Extends (AssignedIn nodes) s.declares d := by
  cases s with
  | declaration mutable name initializer =>
    cases initializer with
    | none => exact .of_declare hc (declare_eq_ok h).2
    | some e =>
      obtain ⟨w, c', hw, hd⟩ := bind_eq_ok h
      have hinit := after_of_ok hw ▸ Expr.extends_after (hs e rfl) c
      have hsound : c'.inner.Sound :=
        (List.forall₂_cons.mp (e.tame.of_ok hw).keeps).1.sound hc
      exact hinit.trans (.of_declare hsound (declare_eq_ok hd).2)
  | expression e => exact after_of_ok h ▸ Expr.extends_after (hs e rfl) c

lemma extends_of_error {err : RuntimeError} (hs : ∀ e ∈ s.expression?, e.parts ⊆ nodes)
    (h : s.evaluate c = .error err d) : c.Extends (AssignedIn nodes) [] d := by
  cases s with
  | declaration mutable name initializer =>
    cases initializer with
    | none =>
      obtain rfl := declare_eq_error h
      exact .refl _ _
    | some e =>
      obtain hw | ⟨w, c', hw, hd⟩ := bind_eq_error h
      · exact after_of_error hw ▸ Expr.extends_after (hs e rfl) c
      · obtain rfl := declare_eq_error hd
        exact after_of_ok hw ▸ Expr.extends_after (hs e rfl) c
  | expression e => exact after_of_error h ▸ Expr.extends_after (hs e rfl) c

end Statement

end Varlet
