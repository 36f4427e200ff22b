import Varlet.Proofs.Scoping.Keeping
import Varlet.Scope.Forest

/-! Evaluation in a forest: the chain of a scope is taken out, changed, and written back along the
lineage it came from. -/

namespace Varlet.Forest

open Evaluation

structure Node.Keeps (n m : Node) : Prop where
  id : m.id = n.id
  parent : m.parent = n.parent
  scope : n.scope.Keeps m.scope

lemma Node.Keeps.refl (n : Node) : n.Keeps n := ⟨rfl, rfl, .refl n.scope⟩

lemma Node.Keeps.trans {n m k : Node} (h : n.Keeps m) (h' : m.Keeps k) : n.Keeps k :=
  ⟨h'.id.trans h.id, h'.parent.trans h.parent, h.scope.trans h'.scope⟩

section

variable {nodes : List Node} {id : Option ℕ} {ss : List Scope}

lemma lineage_none (nodes : List Node) : lineage nodes none = [] := by
  cases nodes <;> rfl

lemma lineage_of_not_mem {id : ℕ} (h : ∀ n ∈ nodes, n.id ≠ id) : lineage nodes (some id) = [] := by
  induction nodes with
  | nil => rfl
  | cons n older ih =>
    rw [List.forall_mem_cons] at h
    rw [lineage, if_neg h.1, ih h.2]

lemma restore_nil (nodes : List Node) (id : Option ℕ) : restore nodes id [] = nodes := by
  cases nodes <;> cases id <;> rfl

lemma map_id_restore (nodes : List Node) (id : Option ℕ) (ss : List Scope) :
    (restore nodes id ss).map Node.id = nodes.map Node.id := by
  fun_induction restore nodes id ss with
  | case1 n older s ss ih => simp [ih]
  | case2 n older id s ss hne ih => simp [ih]
  | case3 => rfl

lemma scope_of_mem_restore {id : ℕ} {s : Scope} {m : Node}
    (hids : (nodes.map Node.id).Pairwise (· > ·)) (hm : m ∈ restore nodes (some id) (s :: ss))
    (hid : m.id = id) : m.scope = s := by
  induction nodes with
  | nil => cases hm
  | cons n older ih =>
    rw [List.map_cons, List.pairwise_cons] at hids
    rw [restore] at hm
    split at hm
    · rename_i heq
      rcases List.mem_cons.1 hm with rfl | hm
      · rfl
      · have hmem : m.id ∈ (restore older n.parent ss).map Node.id := List.mem_map_of_mem hm
        rw [map_id_restore] at hmem
        have hlt := hids.1 _ hmem
        omega
    · rename_i hne
      rcases List.mem_cons.1 hm with rfl | hm
      · exact absurd hid hne
      · exact ih hids.2 hm

lemma exists_of_mem_restore (h : List.Forall₂ Scope.Keeps ((lineage nodes id).map Node.scope) ss)
    {m : Node} (hm : m ∈ restore nodes id ss) : ∃ n ∈ nodes, n.Keeps m := by
  fun_induction restore nodes id ss with
  | case1 n older s ss ih =>
    rw [lineage, if_pos rfl, List.map_cons, List.forall₂_cons] at h
    rcases List.mem_cons.1 hm with rfl | hm
    · exact ⟨n, List.mem_cons_self, rfl, rfl, h.1⟩
    · obtain ⟨k, hk, hkeeps⟩ := ih h.2 hm
      exact ⟨k, List.mem_cons_of_mem n hk, hkeeps⟩
  | case2 n older id s ss hne ih =>
    rw [lineage, if_neg hne] at h
    rcases List.mem_cons.1 hm with rfl | hm
    · exact ⟨m, List.mem_cons_self, .refl m⟩
    · obtain ⟨k, hk, hkeeps⟩ := ih h hm
      exact ⟨k, List.mem_cons_of_mem n hk, hkeeps⟩
  | case3 => exact ⟨m, hm, .refl m⟩

lemma mem_or_exists_of_mem_restore (h : ss.length = (lineage nodes id).length) {m : Node}
    (hm : m ∈ restore nodes id ss) :
    m ∈ nodes ∨ ∃ nearer n beyond before after, lineage nodes id = nearer ++ n :: beyond ∧
      n ∈ nodes ∧ m.id = n.id ∧ ss = before ++ m.scope :: after ∧
      nearer.length = before.length := by
  fun_induction restore nodes id ss with
  | case1 n older s ss ih =>
    rw [lineage, if_pos rfl] at h ⊢
    rcases List.mem_cons.1 hm with rfl | hm
    · exact .inr ⟨[], n, _, [], ss, rfl, List.mem_cons_self, rfl, rfl, rfl⟩
    · obtain hm | ⟨nearer, k, beyond, before, after, hl, hk, hid, hss, hlen⟩ :=
        ih (Nat.succ_inj.1 h) hm
      · exact .inl (List.mem_cons_of_mem n hm)
      · refine .inr ⟨n :: nearer, k, beyond, s :: before, after, ?_, List.mem_cons_of_mem n hk, hid,
          ?_, congrArg (· + 1) hlen⟩
        · rw [hl, List.cons_append]
        · rw [hss, List.cons_append]
  | case2 n older id s ss hne ih =>
    rw [lineage, if_neg hne] at h ⊢
    rcases List.mem_cons.1 hm with rfl | hm
    · exact .inl List.mem_cons_self
    · obtain hm | ⟨nearer, k, beyond, before, after, hl, hk, hrest⟩ := ih h hm
      · exact .inl (List.mem_cons_of_mem n hm)
      · exact .inr ⟨nearer, k, beyond, before, after, hl, List.mem_cons_of_mem n hk, hrest⟩
  | case3 => exact .inl hm

lemma restore_lineage (nodes : List Node) (id : Option ℕ) :
    restore nodes id ((lineage nodes id).map Node.scope) = nodes := by
  fun_induction lineage nodes id with
  | case1 id => rw [List.map_nil, restore_nil]
  | case2 nodes => rw [List.map_nil, restore_nil]
  | case3 n older ih => rw [List.map_cons, restore, if_pos rfl, ih]
  | case4 n older id hne ih =>
    cases hl : (lineage older (some id)).map Node.scope with
    | nil => rw [restore_nil]
    | cons s ss => rw [restore, if_neg hne, ← hl, ih]

lemma lineage_restore (h : ss.length = (lineage nodes id).length) :
    (lineage (restore nodes id ss) id).map Node.scope = ss := by
  fun_induction lineage nodes id generalizing ss with
  | case1 id =>
    obtain rfl := List.length_eq_zero_iff.1 h
    rw [restore_nil, lineage, List.map_nil]
  | case2 nodes =>
    obtain rfl := List.length_eq_zero_iff.1 h
    rw [lineage_none, List.map_nil]
  | case3 n older ih =>
    obtain ⟨s, ss, rfl⟩ := List.exists_cons_of_length_eq_add_one h
    rw [restore, if_pos rfl, lineage, if_pos rfl, List.map_cons, ih (Nat.succ_inj.1 h)]
  | case4 n older id hne ih =>
    cases ss with
    | nil =>
      have hnil := List.length_eq_zero_iff.1 h.symm
      rw [restore_nil, lineage, if_neg hne, hnil, List.map_nil]
    | cons s ss => rw [restore, if_neg hne, lineage, if_neg hne, ih h]

lemma restore_restore {ts : List Scope} (h : ss.length = ts.length) :
    restore (restore nodes id ss) id ts = restore nodes id ts := by
  fun_induction restore nodes id ss generalizing ts with
  | case1 n older s ss ih =>
    obtain ⟨t, ts, rfl⟩ := List.exists_cons_of_length_eq_add_one h.symm
    simp only [restore, if_true, ih (Nat.succ_inj.1 h)]
  | case2 n older id s ss hne ih =>
    obtain ⟨t, ts, rfl⟩ := List.exists_cons_of_length_eq_add_one h.symm
    simp only [restore, if_neg hne, ih h]
  | case3 => rfl

end

section

variable {α : Type} {f g : Forest} {id : ℕ} {c d : Chain} {m : Evaluation α}

lemma chain?_eq_some :
    f.chain? id = some c ↔ (lineage f.nodes (some id)).map Node.scope = c.scopes := by
  obtain ⟨inner, outer⟩ := c
  rw [chain?]
  cases (lineage f.nodes (some id)).map Node.scope <;> simp [Chain.ofScopes?, Chain.scopes]

lemma exists_of_chain? (hc : f.chain? id = some c) : ∃ n ∈ f.nodes, n.id = id := by
  by_contra! hnone
  simp [chain?, lineage_of_not_mem hnone, Chain.ofScopes?] at hc

lemma exists_of_mem_update (hc : f.chain? id = some c) (hd : c.Keeps d) {m : Node}
    (hm : m ∈ (f.update id d).nodes) : ∃ n ∈ f.nodes, n.Keeps m := by
  apply exists_of_mem_restore _ hm
  rw [chain?_eq_some.1 hc]
  exact hd

lemma update_chain (hc : f.chain? id = some c) : f.update id c = f := by
  rw [update, ← chain?_eq_some.1 hc, restore_lineage]

lemma chain?_update (hc : f.chain? id = some c) (hd : c.Keeps d) :
    (f.update id d).chain? id = some d := by
  rw [chain?_eq_some, update]
  apply lineage_restore
  rw [← hd.length_eq, ← chain?_eq_some.1 hc, List.length_map]

lemma update_update (hd : c.Keeps d) : (f.update id c).update id d = f.update id d := by
  rw [update, update, restore_restore hd.length_eq, update]

lemma evaluate?_of_ok {a : α} (hc : f.chain? id = some c) (h : m c = .ok a d) :
    f.evaluate? id m = some (.ok a, f.update id d) := by
  simp [evaluate?, hc, h]

lemma evaluate?_of_error {e : RuntimeError} (hc : f.chain? id = some c) (h : m c = .error e d) :
    f.evaluate? id m = some (.error e, f.update id d) := by
  simp [evaluate?, hc, h]

lemma exists_of_evaluate? {r : Except RuntimeError α} (h : f.evaluate? id m = some (r, g)) :
    ∃ c, f.chain? id = some c ∧ g = f.update id (m.after c) ∧
      ((∃ a, m c = .ok a (m.after c) ∧ r = .ok a) ∨
        ∃ e, m c = .error e (m.after c) ∧ r = .error e) := by
  obtain ⟨c, hc, heq⟩ := Option.map_eq_some_iff.1 h
  refine ⟨c, hc, ?_⟩
  cases hm : m c with
  | ok a d =>
    rw [hm] at heq
    obtain ⟨rfl, rfl⟩ := Prod.mk.inj heq
    simp [Evaluation.after, hm]
  | error e d =>
    rw [hm] at heq
    obtain ⟨rfl, rfl⟩ := Prod.mk.inj heq
    simp [Evaluation.after, hm]

lemma evaluate?_bind {β : Type} {k : α → Evaluation β} {r : Except RuntimeError β} (hm : m.Tame)
    (hk : ∀ a, (k a).Tame) (h : f.evaluate? id (m >>= k) = some (r, g)) :
    (∃ e, f.evaluate? id m = some (.error e, g)) ∨
      ∃ a f', f.evaluate? id m = some (.ok a, f') ∧ f'.evaluate? id (k a) = some (r, g) := by
  obtain ⟨c, hc, heq⟩ := Option.map_eq_some_iff.1 h
  cases hmc : m c with
  | error e d =>
    rw [bind_of_error hmc] at heq
    obtain ⟨rfl, rfl⟩ := Prod.mk.inj heq
    exact .inl ⟨e, evaluate?_of_error hc hmc⟩
  | ok a d =>
    rw [bind_of_ok hmc] at heq
    -- the second part finds the chain that the first one has written back
    have hd := chain?_update hc (hm.of_ok hmc).keeps
    refine .inr ⟨a, f.update id d, evaluate?_of_ok hc hmc, ?_⟩
    cases hkd : k a d with
    | ok b e =>
      rw [hkd] at heq
      obtain ⟨rfl, rfl⟩ := Prod.mk.inj heq
      rw [evaluate?_of_ok hd hkd, update_update ((hk a).of_ok hkd).keeps]
    | error err e =>
      rw [hkd] at heq
      obtain ⟨rfl, rfl⟩ := Prod.mk.inj heq
      rw [evaluate?_of_error hd hkd, update_update ((hk a).of_error hkd).keeps]

end

end Varlet.Forest
