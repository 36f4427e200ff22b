import Varlet.Proofs.Scoping.Restoring

namespace Varlet.Forest

open Relation

inductive Step : Forest → Forest → Prop
  | global {f} : Step f (f.create none).2
  | child {f n} : n ∈ f.nodes → Step f (f.create (some n.id)).2
  | drop {f} (id) : Step f (f.drop id)
  | declareGlobals {f id r g} :
      f.evaluate? id Evaluation.declareGlobals = some (r, g) → Step f g
  | declare {f id name v mutable r g} :
      f.evaluate? id (Evaluation.declare name v mutable) = some (r, g) → Step f g
  | assign {f id name v r g} : f.evaluate? id (Evaluation.assign name v) = some (r, g) → Step f g
  | statement {f id r g} {s : Statement} : f.evaluate? id s.evaluate = some (r, g) → Step f g
  | run {f id p echo r emitted g} : f.run? id p echo = some (r, emitted, g) → Step f g

abbrev Steps : Forest → Forest → Prop := ReflTransGen Step

structure Valid (f : Forest) : Prop where
  decreasing : (f.nodes.map Node.id).Pairwise (· > ·)
  fresh : ∀ n ∈ f.nodes, n.id < f.next
  older : ∀ n ∈ f.nodes, ∀ p ∈ n.parent, p < n.id
  sound : ∀ n ∈ f.nodes, n.scope.Sound

inductive Effect (f : Forest) : Forest → Prop
  | create {parent : Option ℕ} : (∀ p ∈ parent, ∃ n ∈ f.nodes, n.id = p) →
      Effect f (f.create parent).2
  | drop (id) : Effect f (f.drop id)
  | change {id c d} : f.chain? id = some c → c.Changes d → Effect f (f.update id d)

lemma Effect.of_tame {α : Type} {f g : Forest} {id : ℕ} {m : Evaluation α}
    {r : Except RuntimeError α} (hm : m.Tame) (h : f.evaluate? id m = some (r, g)) :
    Effect f g := by
  obtain ⟨c, hc, rfl, -⟩ := exists_of_evaluate? h
  exact .change hc (hm c)

lemma Step.effect {f g : Forest} (h : Step f g) : Effect f g := by
  cases h with
  | global => exact .create (by simp)
  | @child n hn =>
    apply Effect.create
    rintro p ⟨rfl⟩
    exact ⟨n, hn, rfl⟩
  | drop id => exact .drop id
  | declareGlobals h => exact .of_tame Evaluation.tame_declareGlobals h
  | declare h => exact .of_tame (Evaluation.tame_declare _ _ _) h
  | assign h => exact .of_tame (Evaluation.tame_assign _ _) h
  | @statement _ _ _ s h => exact .of_tame s.tame h
  | @run id p echo r emitted _ h =>
    obtain ⟨c, hc, heq⟩ := Option.map_eq_some_iff.1 h
    obtain rfl : f.update id (p.run echo c).chain = g := congrArg (·.2.2) heq
    exact .change hc (runStatements_changes _ _ _ _ c)

lemma Valid.effect {f g : Forest} (hf : f.Valid) (h : Effect f g) : g.Valid := by
  cases h with
  | @create parent hp =>
    refine ⟨?_, ?_, ?_, ?_⟩
    · simpa [create] using ⟨hf.fresh, hf.decreasing⟩
    · simp only [create, List.forall_mem_cons]
      exact ⟨Nat.lt_succ_self _, fun n hn => Nat.lt_succ_of_lt (hf.fresh n hn)⟩
    · simp only [create, List.forall_mem_cons]
      refine ⟨fun p hpp => ?_, hf.older⟩
      obtain ⟨n, hn, rfl⟩ := hp p hpp
      exact hf.fresh n hn
    · simp only [create, List.forall_mem_cons]
      exact ⟨Scope.sound_empty, hf.sound⟩
  | drop id =>
    have hsub : (f.drop id).nodes.Sublist f.nodes := List.filter_sublist
    exact ⟨hf.decreasing.sublist (hsub.map _), fun n hn => hf.fresh n (hsub.subset hn),
      fun n hn => hf.older n (hsub.subset hn), fun n hn => hf.sound n (hsub.subset hn)⟩
  | @change id c d hc hd =>
    refine ⟨?_, ?_, ?_, ?_⟩
    · rw [update, map_id_restore]
      exact hf.decreasing
    · intro m hm
      obtain ⟨n, hn, hkeeps⟩ := exists_of_mem_update hc hd.keeps hm
      rw [hkeeps.id]
      exact hf.fresh n hn
    · intro m hm
      obtain ⟨n, hn, hkeeps⟩ := exists_of_mem_update hc hd.keeps hm
      rw [hkeeps.id, hkeeps.parent]
      exact hf.older n hn
    · intro m hm
      obtain ⟨n, hn, hkeeps⟩ := exists_of_mem_update hc hd.keeps hm
      exact hkeeps.scope.sound (hf.sound n hn)

structure Keeps (f g : Forest) : Prop where
  next : f.next ≤ g.next
  source : ∀ m ∈ g.nodes, m.id < f.next → ∃ n ∈ f.nodes, n.Keeps m

lemma Keeps.refl (f : Forest) : f.Keeps f := ⟨le_rfl, fun m hm _ => ⟨m, hm, .refl m⟩⟩

lemma Keeps.trans {f g h : Forest} (hfg : f.Keeps g) (hgh : g.Keeps h) : f.Keeps h := by
  refine ⟨hfg.next.trans hgh.next, fun k hk hlt => ?_⟩
  obtain ⟨m, hm, hmk⟩ := hgh.source k hk (hlt.trans_le hfg.next)
  obtain ⟨n, hn, hnm⟩ := hfg.source m hm (by rwa [← hmk.id])
  exact ⟨n, hn, hnm.trans hmk⟩

lemma Effect.keeps {f g : Forest} (h : Effect f g) : f.Keeps g := by
  cases h with
  | create =>
    refine ⟨Nat.le_succ _, fun m hm hlt => ?_⟩
    rcases List.mem_cons.1 hm with rfl | hm
    · exact absurd hlt (lt_irrefl _)
    · exact ⟨m, hm, .refl m⟩
  | drop id => exact ⟨le_rfl, fun m hm _ => ⟨m, List.mem_of_mem_filter hm, .refl m⟩⟩
  | change hc hd => exact ⟨le_rfl, fun m hm _ => exists_of_mem_update hc hd.keeps hm⟩

lemma Valid.eq_of_id {f : Forest} (hf : f.Valid) {n m : Node} (hn : n ∈ f.nodes) (hm : m ∈ f.nodes)
    (h : n.id = m.id) : n = m :=
  List.inj_on_of_nodup_map (hf.decreasing.imp Nat.ne_of_gt) hn hm h

lemma valid_empty : empty.Valid :=
  ⟨.nil, List.forall_mem_nil _, List.forall_mem_nil _, List.forall_mem_nil _⟩

namespace Steps

variable {f g : Forest}

lemma keeps (h : Steps f g) : f.Keeps g := by
  induction h with
  | refl => exact .refl f
  | tail _ h ih => exact ih.trans h.effect.keeps

lemma valid (h : Steps f g) (hf : f.Valid) : g.Valid := by
  induction h with
  | refl => exact hf
  | tail _ h ih => exact ih.effect h.effect

lemma node_keeps (h : Steps f g) (hf : f.Valid) {n m : Node}
    (hn : n ∈ f.nodes) (hm : m ∈ g.nodes) (hid : m.id = n.id) : n.Keeps m := by
  have hlt : m.id < f.next := hid ▸ hf.fresh n hn
  obtain ⟨k, hk, hkeeps⟩ := h.keeps.source m hm hlt
  have heq : k = n := hf.eq_of_id hk hn (hkeeps.id.symm.trans hid)
  exact heq ▸ hkeeps

end Steps

end Varlet.Forest
