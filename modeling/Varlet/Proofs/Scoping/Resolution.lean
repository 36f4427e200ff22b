import Varlet.Proofs.Scoping.History

/-! Name resolution: a name means its nearest binding on the way outwards through scopes that are
live. The way ends because a parent is always older than its children. -/

namespace Varlet.Forest

def node? (f : Forest) (id : ℕ) : Option Node := f.nodes.find? fun n => n.id = id

def parent? (f : Forest) (n : Node) : Option Node := n.parent.bind f.node?

def visit (f : Forest) (name : String) (n : Node) : Except RuntimeError ℕ ⊕ Node :=
  if n.scope.has name then .inl (.ok n.id)
  else
    match f.parent? n with
    | some p => .inr p
    | none => .inl (.error (.undefinedVariable name))

def search (f : Forest) (name : String) : Node →. Except RuntimeError ℕ :=
  PFun.fix (PFun.lift (f.visit name))

inductive Outwards (f : Forest) : Node → List Node → Prop
  | last {n} : f.parent? n = none → Outwards f n [n]
  | cons {n p ns} : f.parent? n = some p → Outwards f p ns → Outwards f n (n :: ns)

section

variable {f : Forest} {n p : Node} {id : ℕ} {name : String}

lemma node?_eq_some (hf : f.Valid) : f.node? id = some n ↔ n ∈ f.nodes ∧ n.id = id := by
  constructor
  · intro h
    exact ⟨List.mem_of_find?_eq_some h, by simpa using List.find?_some h⟩
  · rintro ⟨hn, rfl⟩
    cases h : f.node? n.id with
    | none =>
      rw [node?, List.find?_eq_none] at h
      exact absurd (decide_eq_true rfl) (h n hn)
    | some m =>
      have hid : m.id = n.id := by simpa using List.find?_some h
      rw [hf.eq_of_id (List.mem_of_find?_eq_some h) hn hid]

lemma parent?_eq_some (hf : f.Valid) :
    f.parent? n = some p ↔ n.parent = some p.id ∧ p ∈ f.nodes := by
  rw [parent?, Option.bind_eq_some_iff]
  constructor
  · rintro ⟨id, hid, h⟩
    obtain ⟨hp, rfl⟩ := (node?_eq_some hf).1 h
    exact ⟨hid, hp⟩
  · rintro ⟨hid, hp⟩
    exact ⟨p.id, hid, (node?_eq_some hf).2 ⟨hp, rfl⟩⟩

lemma lineage_cons_of_lt {older : List Node} {parent : Option ℕ} (h : ∀ p ∈ parent, p < n.id) :
    lineage (n :: older) parent = lineage older parent := by
  cases parent with
  | none => rw [lineage_none, lineage_none]
  | some p => rw [lineage, if_neg (h p rfl).ne']

lemma lineage_of_mem {nodes : List Node} (hids : (nodes.map Node.id).Pairwise (· > ·))
    (holder : ∀ n ∈ nodes, ∀ p ∈ n.parent, p < n.id) (hn : n ∈ nodes) :
    lineage nodes (some n.id) = n :: lineage nodes n.parent := by
  induction nodes with
  | nil => cases hn
  | cons m older ih =>
    rw [List.map_cons, List.pairwise_cons] at hids
    rw [List.forall_mem_cons] at holder
    rcases List.mem_cons.1 hn with rfl | hn
    · rw [lineage, if_pos rfl, lineage_cons_of_lt holder.1]
    · have hlt : n.id < m.id := hids.1 _ (List.mem_map_of_mem hn)
      have hparent : ∀ p ∈ n.parent, p < m.id := fun p hp => (holder.2 n hn p hp).trans hlt
      rw [lineage, if_neg hlt.ne', ih hids.2 holder.2 hn, lineage_cons_of_lt hparent]

lemma outwards_lineage (hf : f.Valid) (hn : n ∈ f.nodes) :
    f.Outwards n (lineage f.nodes (some n.id)) := by
  -- on the identity: the parent is older, so the lineage never has to look back
  induction hid : n.id using Nat.strong_induction_on generalizing n with
  | _ id ih =>
    subst hid
    rw [lineage_of_mem hf.decreasing hf.older hn]
    cases hp : f.parent? n with
    | some p =>
      obtain ⟨hparent, hmem⟩ := (parent?_eq_some hf).1 hp
      rw [hparent]
      exact .cons hp (ih p.id (hf.older n hn p.id hparent) hmem rfl)
    | none =>
      have hnil : lineage f.nodes n.parent = [] := by
        cases hparent : n.parent with
        | none => exact lineage_none f.nodes
        | some id =>
          apply lineage_of_not_mem
          rintro m hm rfl
          rw [(parent?_eq_some hf).2 ⟨hparent, hm⟩] at hp
          cases hp
      rw [hnil]
      exact .last hp

lemma visit_of_has (h : n.scope.has name) : f.visit name n = .inl (.ok n.id) := if_pos h

lemma search_of_inl {r : Except RuntimeError ℕ} (h : f.visit name n = .inl r) :
    f.search name n = Part.some r := by
  have hstop : Sum.inl r ∈ PFun.lift (f.visit name) n := h ▸ Part.mem_some _
  exact Part.eq_some_iff.2 (PFun.fix_stop hstop)

lemma search_of_inr (h : f.visit name n = .inr p) : f.search name n = f.search name p := by
  have hnext : Sum.inr p ∈ PFun.lift (f.visit name) n := h ▸ Part.mem_some _
  exact PFun.fix_fwd_eq hnext

lemma search_of_outwards {ns : List Node} (h : f.Outwards n ns) (name : String) :
    f.search name n =
      match ns.find? fun m => m.scope.has name with
      | some m => Part.some (.ok m.id)
      | none => Part.some (.error (.undefinedVariable name)) := by
  induction h with
  | @last n hp =>
    by_cases hn : n.scope.has name
    · simp [search_of_inl (visit_of_has hn), hn]
    · have hvisit : f.visit name n = .inl (.error (.undefinedVariable name)) := by
        rw [visit, if_neg hn, hp]
      simp [search_of_inl hvisit, hn]
  | @cons n p ns hp _ ih =>
    by_cases hn : n.scope.has name
    · simp [search_of_inl (visit_of_has hn), hn]
    · have hvisit : f.visit name n = .inr p := by rw [visit, if_neg hn, hp]
      simp [search_of_inr hvisit, hn, ih]

lemma chain?_of_mem (hf : f.Valid) (hn : n ∈ f.nodes) :
    f.chain? n.id = some ⟨n.scope, (lineage f.nodes n.parent).map Node.scope⟩ := by
  rw [chain?_eq_some, lineage_of_mem hf.decreasing hf.older hn]
  rfl

lemma exists_chain_of_mem (hf : f.Valid) (hn : n ∈ f.nodes) : ∃ c, f.chain? n.id = some c :=
  ⟨_, chain?_of_mem hf hn⟩

lemma owner?_of_chain? {c : Chain} (hc : f.chain? id = some c) (name : String) :
    c.owner? name =
      ((lineage f.nodes (some id)).find? fun m => m.scope.has name).map Node.scope := by
  rw [Chain.owner?, ← chain?_eq_some.1 hc, List.find?_map]
  rfl

lemma exists_evaluate?_lookup (hf : f.Valid) (hn : n ∈ f.nodes) {owner : Node}
    (h : (lineage f.nodes (some n.id)).find? (fun m => m.scope.has name) = some owner) :
    ∃ v, owner.scope.value? name = some v ∧
      f.evaluate? n.id (Evaluation.lookup name) = some (.ok v, f) := by
  obtain ⟨c, hc⟩ := exists_chain_of_mem hf hn
  have howner : c.owner? name = some owner.scope := by rw [owner?_of_chain? hc, h, Option.map_some]
  have hbound := List.find?_some h
  obtain ⟨v, hv⟩ := Option.isSome_iff_exists.1 hbound
  have hlookup : Evaluation.lookup name c = .ok v c := by simp [Evaluation.lookup, howner, hv]
  exact ⟨v, hv, by rw [evaluate?_of_ok hc hlookup, update_chain hc]⟩

lemma evaluate?_lookup_of_none (hf : f.Valid) (hn : n ∈ f.nodes)
    (h : (lineage f.nodes (some n.id)).find? (fun m => m.scope.has name) = none) :
    f.evaluate? n.id (Evaluation.lookup name) = some (.error (.undefinedVariable name), f) := by
  obtain ⟨c, hc⟩ := exists_chain_of_mem hf hn
  have howner : c.owner? name = none := by rw [owner?_of_chain? hc, h, Option.map_none]
  have hlookup : Evaluation.lookup name c = .error (.undefinedVariable name) c := by
    simp [Evaluation.lookup, howner]
  rw [evaluate?_of_error hc hlookup, update_chain hc]

lemma exists_parent?_of_steps {g : Forest} (hf : f.Valid) (hsteps : Steps f g) {m q : Node}
    (hn : n ∈ f.nodes) (hm : m ∈ g.nodes) (hid : m.id = n.id) (hq : g.parent? m = some q) :
    ∃ p, f.parent? n = some p ∧ p ∈ f.nodes ∧ q ∈ g.nodes ∧ q.id = p.id := by
  have hg : g.Valid := hsteps.valid hf
  obtain ⟨hparent, hqg⟩ := (parent?_eq_some hg).1 hq
  have hlt : q.id < f.next := by
    have holder : q.id < m.id := hg.older m hm q.id hparent
    have hfresh : n.id < f.next := hf.fresh n hn
    omega
  obtain ⟨p, hp, hkeeps⟩ := hsteps.keeps.source q hqg hlt
  refine ⟨p, (parent?_eq_some hf).2 ⟨?_, hp⟩, hp, hqg, hkeeps.id⟩
  rw [← (hsteps.node_keeps hf hn hm hid).parent, hparent, hkeeps.id]

lemma Outwards.isPrefix {g : Forest} (hf : f.Valid) (hsteps : Steps f g) {m : Node}
    {ms ns : List Node} (h : g.Outwards m ms) (hn : n ∈ f.nodes) (hm : m ∈ g.nodes)
    (hid : m.id = n.id) (h' : f.Outwards n ns) : ms.map Node.id <+: ns.map Node.id := by
  induction h generalizing n ns with
  | last =>
    cases h' with
    | last => simp [hid]
    | cons => simp [hid]
  | cons hq _ ih =>
    obtain ⟨p, hp, hpf, hqg, heq⟩ := exists_parent?_of_steps hf hsteps hn hm hid hq
    cases h' with
    | last hnone =>
      rw [hp] at hnone
      cases hnone
    | cons hp' hns =>
      obtain rfl := Option.some.inj (hp'.symm.trans hp)
      rw [List.map_cons, List.map_cons, hid]
      exact List.cons_prefix_cons.2 ⟨rfl, ih hpf hqg heq hns⟩

end

/-- From a live scope in any history, `resolve` finds the first scope on the way outwards that has
the name. However the history goes on, the way only gets shorter, and where a parent is not live it
stays cut. -/
theorem resolve_nearest_live (f : Forest) (hf : Steps empty f) (n : Node) (hn : n ∈ f.nodes)
    (name : String) :
    ∃ path, f.Outwards n path ∧ f.search name n = Part.some (f.resolve n.id name) ∧
      (∀ before owner beyond, path = before ++ owner :: beyond →
        (∀ m ∈ before, ¬ m.scope.has name) → owner.scope.has name →
        f.resolve n.id name = .ok owner.id ∧
          ∃ v, owner.scope.value? name = some v ∧
            f.evaluate? n.id (Evaluation.lookup name) = some (.ok v, f)) ∧
      (f.resolve n.id name = .error (.undefinedVariable name) ↔
        ∀ m ∈ path, ¬ m.scope.has name) ∧
      ((∀ m ∈ path, ¬ m.scope.has name) →
        f.evaluate? n.id (Evaluation.lookup name) = some (.error (.undefinedVariable name), f)) ∧
      ∀ g, Steps f g → ∀ m ∈ g.nodes, m.id = n.id →
        (∀ later, g.Outwards m later → later.map Node.id <+: path.map Node.id) ∧
        (f.parent? n = none → g.Outwards m [m]) := by
  have hvalid : f.Valid := hf.valid valid_empty
  have hpath := outwards_lineage hvalid hn
  refine ⟨lineage f.nodes (some n.id), hpath, ?_, ?_, ?_, ?_, ?_⟩
  · rw [search_of_outwards hpath name, resolve]
    cases (lineage f.nodes (some n.id)).find? fun m => m.scope.has name <;> rfl
  · intro before owner beyond heq hbefore howner
    have hfind : (lineage f.nodes (some n.id)).find? (fun m => m.scope.has name) = some owner := by
      rw [List.find?_eq_some_iff_append]
      exact ⟨howner, before, beyond, heq, by simpa using hbefore⟩
    exact ⟨by rw [resolve, hfind], exists_evaluate?_lookup hvalid hn hfind⟩
  · rw [← List.find?_eq_none, resolve]
    cases (lineage f.nodes (some n.id)).find? fun m => m.scope.has name <;> simp
  · intro h
    exact evaluate?_lookup_of_none hvalid hn (List.find?_eq_none.2 h)
  · intro g hg m hm hid
    refine ⟨fun later hlater => hlater.isPrefix hvalid hg hn hm hid hpath, fun hnone => .last ?_⟩
    by_contra hsome
    obtain ⟨q, hq⟩ := Option.ne_none_iff_exists'.1 hsome
    obtain ⟨p, hp, -⟩ := exists_parent?_of_steps hvalid hg hn hm hid hq
    rw [hnone] at hp
    cases hp

theorem resolve_nearest_live_cut :
    ∃ f root inner, Steps empty f ∧ f.search "x" inner = Part.some (.ok 0) ∧
      root ∈ (f.drop 1).nodes ∧ root.scope.has "x" ∧ inner ∈ (f.drop 1).nodes ∧
      (f.drop 1).search "x" inner = Part.some (.error (.undefinedVariable "x")) := by
  let root : Node := ⟨0, none, ⟨[("x", .null)], []⟩⟩
  let middle : Node := ⟨1, some 0, .empty⟩
  let inner : Node := ⟨2, some 1, .empty⟩
  let start : Forest := ⟨[root], 1⟩
  let f : Forest := ⟨[inner, middle, root], 3⟩
  have hdeclare : (empty.create none).2.evaluate? 0 (Evaluation.declare "x" .null true) =
      some (.ok .null, start) := rfl
  have hchild : Step start (start.create (some root.id)).2 := .child List.mem_cons_self
  have hinner : Step (start.create (some root.id)).2 f := .child (n := middle) List.mem_cons_self
  have hf : Steps empty f := .tail (.tail (.tail (.single .global) (.declare hdeclare)) hchild) hinner
  obtain ⟨-, -, hfound, -⟩ := resolve_nearest_live f hf inner (by simp [f]) "x"
  obtain ⟨-, -, hlost, -⟩ := resolve_nearest_live (f.drop 1) (hf.tail (.drop 1)) inner
    (by simp [f, drop, inner]) "x"
  exact ⟨f, root, inner, hf, hfound, by simp [f, drop, root], rfl, by simp [f, drop, inner], hlost⟩

end Varlet.Forest
