import Varlet.Proofs.Scoping.Flattening
import Varlet.Proofs.Scoping.Overwriting

/-! Statements that share no name but such as both only read. They can change places: each finds the
same bindings whether it comes first or second, and what the two write lies apart. -/

namespace Varlet

lemma Keyed.insert_comm {α : Type} {key other : String} (h : key ≠ other) (a b : α)
    (entries : List (String × α)) :
    insert key a (insert other b entries) = insert other b (insert key a entries) := by
  induction entries with
  | nil =>
    rcases lt_or_gt_of_ne h with hlt | hlt
    · simp [insert, hlt, h.symm, hlt.not_gt]
    · simp [insert, hlt, h, hlt.not_gt]
  | cons e entries ih =>
    obtain ⟨k, d⟩ := e
    grind [insert]

namespace Scope

def bind (s : Scope) (name : String) (v : Value) (mutable : Bool) : Scope :=
  if mutable then s.put name v else (s.put name v).protect name

variable {name other : String}

lemma bind_comm (h : name ≠ other) (s : Scope) (v w : Value) (mutable mutable' : Bool) :
    (s.bind name v mutable).bind other w mutable' =
      (s.bind other w mutable').bind name v mutable := by
  cases mutable <;> cases mutable' <;>
    simp [bind, put, protect, Keyed.insert_comm h]

lemma has_bind_of_ne (h : other ≠ name) (s : Scope) (v : Value) (mutable : Bool) :
    (s.bind name v mutable).has other = s.has other := by
  cases mutable <;> simp [bind, has, value?_put_of_ne h]

lemma isConstant_bind_of_ne (h : other ≠ name) (s : Scope) (v : Value) (mutable : Bool) :
    (s.bind name v mutable).isConstant other = s.isConstant other := by
  cases mutable <;> simp [bind, isConstant_protect_of_ne h]

lemma binding?_bind_of_ne (h : other ≠ name) (s : Scope) (v : Value) (mutable : Bool) :
    (s.bind name v mutable).binding? other = s.binding? other := by
  have hvalue : (s.bind name v mutable).value? other = s.value? other := by
    cases mutable <;> simp [bind, value?_put_of_ne h]
  rw [binding?, hvalue, isConstant_bind_of_ne h, binding?]

end Scope

/-- The first scope where `here` holds binds the name anew, and `allowed` holds there. Both look
only at whether the scope has the name and whether it is constant. -/
inductive Binds (here allowed : Bool → Bool → Prop) (name : String) (v : Value) (mutable : Bool) :
    List Scope → List Scope → Prop
  | here {s ss} : here (s.has name) (s.isConstant name) →
      allowed (s.has name) (s.isConstant name) →
      Binds here allowed name v mutable (s :: ss) (s.bind name v mutable :: ss)
  | later {s ss ts} : ¬ here (s.has name) (s.isConstant name) →
      Binds here allowed name v mutable ss ts →
      Binds here allowed name v mutable (s :: ss) (s :: ts)

namespace Binds

variable {here allowed here' allowed' : Bool → Bool → Prop} {name other : String} {v w : Value}
variable {mutable mutable' : Bool} {ss ts us : List Scope}

lemma swap (hne : name ≠ other) (h : Binds here allowed name v mutable ss ts)
    (h' : Binds here' allowed' other w mutable' ts us) :
    ∃ ts', Binds here' allowed' other w mutable' ss ts' ∧
      Binds here allowed name v mutable ts' us := by
  induction h generalizing us with
  | @here s ss hs ha =>
    cases h' with
    | here hs' ha' =>
      rw [Scope.has_bind_of_ne hne.symm, Scope.isConstant_bind_of_ne hne.symm] at hs' ha'
      rw [← Scope.has_bind_of_ne hne s w mutable', ← Scope.isConstant_bind_of_ne hne s w mutable']
        at hs ha
      exact ⟨_, .here hs' ha', Scope.bind_comm hne s v w mutable mutable' ▸ .here hs ha⟩
    | later hs' h' =>
      rw [Scope.has_bind_of_ne hne.symm, Scope.isConstant_bind_of_ne hne.symm] at hs'
      exact ⟨_, .later hs' h', .here hs ha⟩
  | @later s ss ts hs h ih =>
    cases h' with
    | here hs' ha' =>
      rw [← Scope.has_bind_of_ne hne s w mutable', ← Scope.isConstant_bind_of_ne hne s w mutable']
        at hs
      exact ⟨_, .here hs' ha', .later hs h⟩
    | later hs' h' =>
      obtain ⟨ts', hts', hus⟩ := ih h'
      exact ⟨_, .later hs' hts', .later hs hus⟩

lemma exists_chain (h : Binds here allowed name v mutable ss ts) : ∃ c : Chain, c.scopes = ts := by
  cases h with
  | here _ _ => exact ⟨⟨_, _⟩, rfl⟩
  | later _ _ => exact ⟨⟨_, _⟩, rfl⟩

lemma findSome?_eq (hne : other ≠ name) (h : Binds here allowed name v mutable ss ts) :
    ts.findSome? (fun s => s.binding? other) = ss.findSome? fun s => s.binding? other := by
  induction h with
  | here _ _ => rw [List.findSome?_cons, List.findSome?_cons, Scope.binding?_bind_of_ne hne]
  | later _ _ ih => rw [List.findSome?_cons, List.findSome?_cons, ih]

end Binds

lemma assignNearest_eq_ok_iff {name : String} {v : Value} {ss ts : List Scope} :
    assignNearest name v ss = .ok ts ↔
      Binds (fun has _ => has) (fun _ constant => constant = false) name v true ss ts := by
  constructor
  · intro h
    induction ss generalizing ts with
    | nil => cases h
    | cons s ss ih =>
      rw [assignNearest] at h
      split_ifs at h with hs
      · obtain ⟨t, ht, rfl⟩ := map_eq_ok.mp h
        obtain ⟨hc, rfl⟩ := Scope.eq_of_assign ht
        exact .here hs hc
      · obtain ⟨us, hus, rfl⟩ := map_eq_ok.mp h
        exact .later hs (ih hus)
  · intro h
    induction h with
    | here hs hc =>
      rw [assignNearest, if_pos hs, Scope.assign, if_neg (by simp [hc])]
      rfl
    | later hs _ ih =>
      rw [assignNearest, if_neg hs, ih]
      rfl

lemma Chain.declare_eq_ok_iff {c d : Chain} {name : String} {v : Value} {mutable : Bool} :
    c.declare name v mutable = .ok d ↔
      Binds (fun _ _ => True) (fun has _ => has = false) name v mutable c.scopes d.scopes := by
  obtain ⟨s, ss⟩ := c
  obtain ⟨t, ts⟩ := d
  constructor
  · intro h
    obtain ⟨u, hu, heq⟩ := map_eq_ok.mp h
    obtain ⟨rfl, rfl⟩ := Chain.mk.inj heq
    obtain ⟨hbound, rfl⟩ := Scope.eq_of_declare hu
    exact .here trivial (by simpa using hbound)
  · intro h
    cases h with
    | here _ hs =>
      rw [Chain.declare, Scope.declare, if_neg (by simp [hs])]
      cases mutable <;> rfl
    | later hn _ => exact absurd trivial hn

namespace Evaluation

variable {α β γ : Type} {m : Evaluation α} {n : Evaluation β} {name other : String}

def Commutes (m : Evaluation α) (n : Evaluation β) : Prop :=
  ∀ c d a b, (∃ c', m c = .ok a c' ∧ n c' = .ok b d) ↔ ∃ c', n c = .ok b c' ∧ m c' = .ok a d

lemma Commutes.symm (h : m.Commutes n) : n.Commutes m := fun c d b a => (h c d a b).symm

lemma commutes_pure (a : α) (n : Evaluation β) : Commutes (pure a) n := by
  intro c d a' b
  constructor
  · rintro ⟨c', hpure, hn⟩
    obtain ⟨rfl, rfl⟩ := EStateM.Result.ok.inj hpure
    exact ⟨d, hn, rfl⟩
  · rintro ⟨c', hn, hpure⟩
    obtain ⟨rfl, rfl⟩ := EStateM.Result.ok.inj hpure
    exact ⟨c, rfl, hn⟩

lemma commutes_throw (e : RuntimeError) (n : Evaluation β) :
    Commutes (throw e : Evaluation α) n := by
  intro c d a b
  constructor
  · rintro ⟨c', hthrow, -⟩
    cases hthrow
  · rintro ⟨c', -, hthrow⟩
    cases hthrow

lemma Commutes.bind {k : α → Evaluation γ} (hm : m.Commutes n) (hk : ∀ a, (k a).Commutes n) :
    Commutes (m >>= k) n := by
  intro c d x b
  constructor
  · rintro ⟨c', hbind, hn⟩
    obtain ⟨a, c₁, hm₁, hk₁⟩ := bind_eq_ok hbind
    obtain ⟨c₂, hn₂, hk₂⟩ := (hk a c₁ d x b).mp ⟨c', hk₁, hn⟩
    obtain ⟨c₃, hn₃, hm₃⟩ := (hm c c₂ a b).mp ⟨c₁, hm₁, hn₂⟩
    exact ⟨c₃, hn₃, (bind_of_ok hm₃ k).trans hk₂⟩
  · rintro ⟨c', hn, hbind⟩
    obtain ⟨a, c₁, hm₁, hk₁⟩ := bind_eq_ok hbind
    obtain ⟨c₂, hm₂, hn₂⟩ := (hm c c₁ a b).mpr ⟨c', hn, hm₁⟩
    obtain ⟨c₃, hk₃, hn₃⟩ := (hk a c₂ d x b).mpr ⟨c₁, hn₂, hk₁⟩
    exact ⟨c₃, (bind_of_ok hm₂ k).trans hk₃, hn₃⟩

def BindsAt (name : String) (m : Evaluation Value) : Prop :=
  ∃ here allowed v mutable, ∀ c w d, m c = .ok w d ↔
    w = v ∧ Binds here allowed name v mutable c.scopes d.scopes

lemma bindsAt_assign (name : String) (v : Value) : (assign name v).BindsAt name := by
  refine ⟨fun has _ => has, fun _ constant => constant = false, v, true, fun c w d => ?_⟩
  rw [← assignNearest_eq_ok_iff, ← Chain.assign_eq_ok_iff, assign]
  cases c.assign name v <;> simp [eq_comm]

lemma bindsAt_declare (name : String) (v : Value) (mutable : Bool) :
    (declare name v mutable).BindsAt name := by
  refine ⟨fun _ _ => True, fun has _ => has = false, v, mutable, fun c w d => ?_⟩
  rw [← Chain.declare_eq_ok_iff, declare]
  cases c.declare name v mutable <;> simp [eq_comm]

lemma BindsAt.commutes {m n : Evaluation Value} (hne : name ≠ other) (hm : m.BindsAt name)
    (hn : n.BindsAt other) : m.Commutes n := by
  obtain ⟨here, allowed, v, mutable, hm⟩ := hm
  obtain ⟨here', allowed', w, mutable', hn⟩ := hn
  intro c d a b
  simp only [hm, hn]
  constructor
  · rintro ⟨c', ⟨rfl, h⟩, rfl, h'⟩
    obtain ⟨_, hts, hd⟩ := h.swap hne h'
    obtain ⟨c'', rfl⟩ := hts.exists_chain
    exact ⟨c'', ⟨rfl, hts⟩, rfl, hd⟩
  · rintro ⟨c', ⟨rfl, h⟩, rfl, h'⟩
    obtain ⟨_, hts, hd⟩ := h.swap hne.symm h'
    obtain ⟨c'', rfl⟩ := hts.exists_chain
    exact ⟨c'', ⟨rfl, hts⟩, rfl, hd⟩

lemma lookup_eq_ok_iff {c d : Chain} {v : Value} :
    lookup name c = .ok v d ↔ c = d ∧ (c.binding? name).map Prod.fst = some v := by
  cases hc : c.binding? name with
  | none => simp [lookup_of_forall_not (Chain.forall_not_of_binding? hc)]
  | some b =>
    obtain ⟨_, _, _, hn, hv, -⟩ := Chain.exists_nearest_of_binding? hc
    simp [lookup_of_nearest hn hv, and_comm]

lemma commutes_lookup (h : ∀ c d b, n c = .ok b d → d.binding? name = c.binding? name) :
    (lookup name).Commutes n := by
  intro c d v b
  simp only [lookup_eq_ok_iff]
  constructor
  · rintro ⟨_, ⟨rfl, hv⟩, hn⟩
    exact ⟨d, hn, rfl, by rwa [h c d b hn]⟩
  · rintro ⟨_, hn, rfl, hv⟩
    exact ⟨c, ⟨rfl, by rwa [← h c _ b hn]⟩, hn⟩

lemma commutes_lookup_lookup (name other : String) : (lookup name).Commutes (lookup other) := by
  apply commutes_lookup
  intro c d v h
  rw [(lookup_eq_ok_iff.mp h).1]

lemma BindsAt.commutes_lookup {n : Evaluation Value} (hne : name ≠ other) (hn : n.BindsAt other) :
    (lookup name).Commutes n := by
  obtain ⟨here, allowed, v, mutable, hn⟩ := hn
  apply Evaluation.commutes_lookup
  intro c d w h
  rw [Chain.binding?_eq_findSome?, Chain.binding?_eq_findSome?,
    ((hn c w d).mp h).2.findSome?_eq hne]

lemma Uses.commutes {reads writes : String → Prop} (h : m.Uses reads writes)
    (hr : ∀ name, reads name → (Evaluation.lookup name).Commutes n)
    (hw : ∀ name v, writes name → (Evaluation.assign name v).Commutes n) : m.Commutes n := by
  induction h with
  | pure a => exact commutes_pure a n
  | throw e => exact commutes_throw e n
  | lookup hname => exact hr _ hname
  | assign v hname => exact hw _ v hname
  | bind _ _ ihm ihk => exact ihm.bind ihk

end Evaluation

namespace Statement

open Evaluation

def parts (s : Statement) : List Expr := s.expression?.toList.flatMap Expr.parts

def Reads (s : Statement) (name : String) : Prop := ReadIn s.parts name

def Writes (s : Statement) (name : String) : Prop :=
  (∃ mutable, (name, mutable) ∈ s.declares) ∨ AssignedIn s.parts name

def Independent (s t : Statement) : Prop :=
  ∀ name, (s.Writes name → ¬ t.Writes name ∧ ¬ t.Reads name) ∧
    (t.Writes name → ¬ s.Writes name ∧ ¬ s.Reads name)

lemma commutes_of_forall {β : Type} {n : Evaluation β} {s : Statement}
    (hr : ∀ name, s.Reads name → (lookup name).Commutes n)
    (hw : ∀ name m, s.Writes name → BindsAt name m → m.Commutes n) : s.evaluate.Commutes n := by
  have hexpr (e : Expr) (he : s.expression? = some e) : e.evaluate.Commutes n := by
    have hparts : e.parts ⊆ s.parts := by simp [parts, he]
    refine (e.uses_of_subset hparts).commutes hr fun name v hname => ?_
    exact hw name _ (.inr hname) (bindsAt_assign name v)
  cases s with
  | expression e => exact hexpr e rfl
  | declaration mutable name initializer =>
    have hdeclare (v : Value) : (declare name v mutable).Commutes n :=
      hw name _ (.inl ⟨mutable, List.mem_singleton_self _⟩) (bindsAt_declare name v mutable)
    cases initializer with
    | none => exact hdeclare .null
    | some e => exact (hexpr e rfl).bind hdeclare

lemma Independent.commutes {s t : Statement} (h : s.Independent t) :
    s.evaluate.Commutes t.evaluate := by
  apply commutes_of_forall
  · intro name hname
    refine (commutes_of_forall (fun other _ => ?_) fun other m hother hm => ?_).symm
    · exact commutes_lookup_lookup other name
    · refine (hm.commutes_lookup ?_).symm
      rintro rfl
      exact ((h name).2 hother).2 hname
  · intro name m hname hm
    refine (commutes_of_forall (fun other hother => ?_) fun other m' hother hm' => ?_).symm
    · refine hm.commutes_lookup ?_
      rintro rfl
      exact ((h other).1 hname).2 hother
    · refine hm'.commutes ?_ hm
      rintro rfl
      exact ((h other).1 hname).1 hother

end Statement

lemma Program.run_pair_eq_ok {s t : Statement} {c : Chain} {echo : Echo} {v : Value}
    (h : (run ⟨[s, t]⟩ echo c).result = .ok v) :
    ∃ w c', s.evaluate c = .ok w c' ∧ t.evaluate c' = .ok v (run ⟨[s, t]⟩ echo c).chain := by
  simp only [run, runStatements] at h ⊢
  cases hs : s.evaluate c with
  | error e c' => simp [hs] at h
  | ok w c' =>
    simp only [hs] at h ⊢
    cases ht : t.evaluate c' with
    | error e d => simp [ht] at h
    | ok u d =>
      simp only [ht] at h ⊢
      obtain rfl := Except.ok.inj h
      exact ⟨w, c', rfl, ht⟩

lemma Program.run_pair {s t : Statement} {c c' d : Chain} {v w : Value}
    (hs : s.evaluate c = .ok w c') (ht : t.evaluate c' = .ok v d) (echo : Echo) :
    (run ⟨[s, t]⟩ echo c).result = .ok v ∧ (run ⟨[s, t]⟩ echo c).chain = d := by
  simp [run, runStatements, hs, ht]

theorem Program.run_independent_swap (s t : Statement) (h : s.Independent t) (c : Chain)
    (echo : Echo) :
    ((∃ v, (run ⟨[s, t]⟩ echo c).result = .ok v) ↔ ∃ w, (run ⟨[t, s]⟩ echo c).result = .ok w) ∧
      ∀ v w, (run ⟨[s, t]⟩ echo c).result = .ok v → (run ⟨[t, s]⟩ echo c).result = .ok w →
        (run ⟨[s, t]⟩ echo c).chain = (run ⟨[t, s]⟩ echo c).chain ∧
        (∃ c', s.evaluate c = .ok w c' ∧ t.evaluate c' = .ok v (run ⟨[s, t]⟩ echo c).chain) ∧
        ∃ c', t.evaluate c = .ok v c' ∧ s.evaluate c' = .ok w (run ⟨[t, s]⟩ echo c).chain := by
  refine ⟨⟨?_, ?_⟩, fun v w hst hts => ?_⟩
  · rintro ⟨v, hrun⟩
    obtain ⟨w, c', hs, ht⟩ := run_pair_eq_ok hrun
    obtain ⟨c'', ht', hs'⟩ := (h.commutes _ _ _ _).mp ⟨c', hs, ht⟩
    exact ⟨w, (run_pair ht' hs' echo).1⟩
  · rintro ⟨w, hrun⟩
    obtain ⟨v, c', ht, hs⟩ := run_pair_eq_ok hrun
    obtain ⟨c'', hs', ht'⟩ := (h.commutes _ _ _ _).mpr ⟨c', ht, hs⟩
    exact ⟨v, (run_pair hs' ht' echo).1⟩
  · obtain ⟨w', c', hs, ht⟩ := run_pair_eq_ok hst
    obtain ⟨c'', ht', hs'⟩ := (h.commutes _ _ _ _).mp ⟨c', hs, ht⟩
    obtain ⟨hresult, hchain⟩ := run_pair ht' hs' echo
    obtain rfl := Except.ok.inj (hresult.symm.trans hts)
    rw [hchain]
    exact ⟨rfl, ⟨c', hs, ht⟩, c'', ht', hs'⟩

theorem Program.run_independent_swap_shadowing :
    let s : Statement := .declaration false "x" (some (.identifier "y"))
    let t : Statement := .expression (.assignment (.identifier "z") (.object [⟨"y", none⟩]))
    let outer : Scope := ⟨[("x", .null), ("y", .boolean true), ("z", .null)], [("x", ())]⟩
    let c : Chain := ⟨.empty, [outer]⟩
    let d : Chain := ⟨⟨[("x", .boolean true)], [("x", ())]⟩,
      [⟨[("x", .null), ("y", .boolean true), ("z", .object [("y", .boolean true)])], [("x", ())]⟩]⟩
    s.Independent t ∧ (run ⟨[s, t]⟩ .statements c).chain = d ∧
      (run ⟨[t, s]⟩ .statements c).chain = d := by
  intro s t outer c d
  have hs (name : String) : (s.Writes name ↔ name = "x") ∧ (s.Reads name ↔ name = "y") := by
    simp [s, Statement.Writes, Statement.Reads, Statement.declares, Statement.parts,
      Statement.expression?, Expr.parts, AssignedIn, ReadIn]
  have ht (name : String) : (t.Writes name ↔ name = "z") ∧
      (t.Reads name ↔ name = "z" ∨ name = "y") := by
    simp [t, Statement.Writes, Statement.Reads, Statement.declares, Statement.parts,
      Statement.expression?, Expr.parts, propertiesParts, AssignedIn, ReadIn]
  have hindependent : s.Independent t := by
    intro name
    rw [(hs name).1, (hs name).2, (ht name).1, (ht name).2]
    constructor <;> rintro rfl <;> decide
  have hfirst : (run ⟨[s, t]⟩ .statements c).chain = d := rfl
  obtain ⟨-, hsame⟩ := run_independent_swap s t hindependent c .statements
  obtain ⟨hchain, -⟩ := hsame _ _ rfl rfl
  exact ⟨hindependent, hfirst, hchain.symm.trans hfirst⟩

end Varlet
