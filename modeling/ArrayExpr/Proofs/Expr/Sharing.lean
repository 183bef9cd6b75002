/-
Outlines of graphs with shared nodes.

* `Graph.Round`: one round over a stack of nodes that are entered and left;
  `Rounds.outlineWithin_eq`: the rounds are those of the program;
* `Graph.Adds`: what rounds add to the outlines that are made;
* `Unfolds.visits`: a node on top of the stack is taken from it with its outline made,
  each node below it entered at most once;
* `Graph.Outlines`, `Acyclic.outlines`: **outlining with a stack ends**, looks up no child
  that is not made, and gives the outline of the tree without sharing.
-/
import ArrayExpr.Proofs.Expr.Shapes
import ArrayExpr.Proofs.Expr.Unfolding

namespace ArrayExpr

/-- Of different summands of a sum at most the whole sum is had. -/
lemma sum_map_le_of_nodup {f : ℕ → ℕ} {ms ns : List ℕ} (hms : ms.Nodup) (hsub : ms ⊆ ns) :
    (ms.map f).sum ≤ (ns.map f).sum := by
  obtain ⟨ms', hperm, hle⟩ := hms.subperm hsub
  rw [← (hperm.map f).sum_nat]
  exact (hle.map f).sum_le_sum fun _ _ => Nat.zero_le _

namespace Graph

open Relation

variable {ν : Type}

/-! ### Rounds -/

/-- Outlining on its way: what is on the stack, and the outlines made so far. -/
structure Work where
  stack : List (ℕ × Bool)
  made : Made

/-- Outlining that begins with a node. -/
def Work.start (i : ℕ) : Work := ⟨[(i, false)], []⟩

/-- One round: a node that is made is skipped, another one is entered, which puts its
children above it, and left once each of them is made. -/
inductive Round (g : Graph ν) (lit : ν → Outline) : Work → Work → Prop
  | skip {i : ℕ} {entered : Bool} {stack : List (ℕ × Bool)} {made : Made}
      (h : (made.lookup i).isSome = true) :
      Round g lit ⟨(i, entered) :: stack, made⟩ ⟨stack, made⟩
  | enter {i : ℕ} {n : Node ν ℕ} {stack : List (ℕ × Bool)} {made : Made}
      (h : made.lookup i = none) (hn : g.node? i = some n) :
      Round g lit ⟨(i, false) :: stack, made⟩
        ⟨(n.children.map (·, false)).reverse ++ (i, true) :: stack, made⟩
  | leave {i : ℕ} {n : Node ν ℕ} {n' : Node ν Outline} {stack : List (ℕ × Bool)} {made : Made}
      (h : made.lookup i = none) (hn : g.node? i = some n)
      (hn' : n.mapChildren? (made.lookup ·) = some n') :
      Round g lit ⟨(i, true) :: stack, made⟩ ⟨stack, (i, n'.outline lit) :: made⟩

/-- A number of rounds. -/
inductive Rounds (g : Graph ν) (lit : ν → Outline) : ℕ → Work → Work → Prop
  | none (x : Work) : Rounds g lit 0 x x
  | more {k : ℕ} {x y z : Work} (h : Round g lit x y) (hs : Rounds g lit k y z) :
      Rounds g lit (k + 1) x z

variable {g : Graph ν} {lit : ν → Outline} {i j k : ℕ} {n : Node ν ℕ} {t : Tree ν Unit}
  {x y z : Work} {made new new' : Made} {P : ℕ → Prop}

lemma Round.unique (h : Round g lit x y) (h' : Round g lit x z) : y = z := by
  cases h <;> cases h' <;> grind

lemma Rounds.append (h : Rounds g lit j x y) (h' : Rounds g lit k y z) :
    Rounds g lit (j + k) x z := by
  induction h with
  | none x => rwa [Nat.zero_add]
  | more hround _ ih =>
      rw [Nat.succ_add]
      exact .more hround (ih h')

lemma Round.rounds (h : Round g lit x y) : Rounds g lit 1 x y := .more h (.none y)

/-- **The rounds are those of the program.** -/
lemma Rounds.outlineWithin_eq (h : Rounds g lit k x y) (fuel : ℕ) :
    g.outlineWithin lit (fuel + k) x.stack x.made = g.outlineWithin lit fuel y.stack y.made := by
  induction h with
  | none x => rfl
  | more hround _ ih =>
      rw [← Nat.add_assoc, ← ih]
      cases hround with
      | skip h => rw [outlineWithin, if_pos h]
      | enter h hn => simp [outlineWithin, h, hn]
      | leave h hn hn' => simp [outlineWithin, h, hn, hn']

/-- On the way to an empty stack there is always another round. -/
lemma Rounds.goes_on (hend : Rounds g lit k x z) (hz : z.stack = []) (h : Rounds g lit j x y) :
    y.stack = [] ∨ ∃ y', Round g lit y y' := by
  induction h generalizing k with
  | none x =>
      cases hend with
      | none => exact .inl hz
      | more hround _ => exact .inr ⟨_, hround⟩
  | more hround _ ih =>
      cases hend with
      | none => cases hround <;> cases hz
      | more hround' hend => exact ih (hround.unique hround' ▸ hend)

/-! ### What rounds add -/

/-- Every outline is that of the tree of its node. -/
def Sound (g : Graph ν) (lit : ν → Outline) (made : Made) : Prop :=
  ∀ p ∈ made, ∃ t, g.Unfolds p.1 t ∧ p.2 = t.outline lit

/-- New outlines of nodes that satisfy `P`, none made before and none made twice. -/
structure Adds (g : Graph ν) (lit : ν → Outline) (P : ℕ → Prop) (made new : Made) : Prop where
  fresh : ∀ p ∈ new, made.lookup p.1 = none
  nodup : (new.map Prod.fst).Nodup
  within : ∀ p ∈ new, P p.1
  sound : g.Sound lit new

/-- The rounds that a node takes after it is entered, once with each of its children. -/
def share (g : Graph ν) (i : ℕ) : ℕ := ((g.node? i).map fun n => n.children.length + 1).getD 0

/-- The rounds that outlines take. -/
def cost (g : Graph ν) (made : Made) : ℕ := (made.map fun p => g.share p.1).sum

lemma Sound.append (h : g.Sound lit new) (h' : g.Sound lit made) : g.Sound lit (new ++ made) :=
  fun p hp => (List.mem_append.mp hp).elim (h p) (h' p)

lemma Sound.lookup (h : g.Sound lit made) (ht : g.Unfolds i t)
    (hi : (made.lookup i).isSome = true) : made.lookup i = some (t.outline lit) := by
  obtain ⟨o, ho⟩ := Option.isSome_iff_exists.mp hi
  obtain ⟨before, behind, rfl, -⟩ := List.lookup_eq_some_iff.mp ho
  obtain ⟨t', ht', rfl⟩ := h (i, o) (by simp)
  rw [ho, ht.unique ht']

lemma adds_nil (P : ℕ → Prop) (made : Made) : g.Adds lit P made [] :=
  ⟨by simp, List.nodup_nil, by simp, by simp [Sound]⟩

lemma adds_one (h : made.lookup i = none) (hi : P i) (ht : g.Unfolds i t) :
    g.Adds lit P made [(i, t.outline lit)] :=
  ⟨by simpa using h, List.nodup_singleton i, by simpa using hi,
    List.forall_mem_singleton.mpr ⟨t, ht, rfl⟩⟩

lemma Adds.append (h : g.Adds lit P made new) (h' : g.Adds lit P (new ++ made) new') :
    g.Adds lit P made (new' ++ new) where
  fresh := fun p hp => by
    rcases List.mem_append.mp hp with hp | hp
    · have hnone := h'.fresh p hp
      rw [List.lookup_append, Option.or_eq_none_iff] at hnone
      exact hnone.2
    · exact h.fresh p hp
  nodup := by
    rw [List.map_append]
    refine List.Nodup.append h'.nodup h.nodup fun j hj hj' => ?_
    obtain ⟨p, hp, rfl⟩ := List.mem_map.mp hj
    obtain ⟨q, hq, heq⟩ := List.mem_map.mp hj'
    have hnone := h'.fresh p hp
    rw [List.lookup_append, Option.or_eq_none_iff, List.lookup_eq_none_iff] at hnone
    simpa [heq] using hnone.1 q hq
  within := fun p hp => (List.mem_append.mp hp).elim (h'.within p) (h.within p)
  sound := h'.sound.append h.sound

lemma Adds.mono {Q : ℕ → Prop} (h : g.Adds lit P made new) (hPQ : ∀ j, P j → Q j) :
    g.Adds lit Q made new :=
  ⟨h.fresh, h.nodup, fun p hp => hPQ _ (h.within p hp), h.sound⟩

lemma cost_append (new made : Made) : g.cost (new ++ made) = g.cost new + g.cost made := by
  rw [cost, List.map_append, List.sum_append]
  rfl

/-- No outlines take more rounds than all nodes. -/
lemma Adds.cost_lt (h : g.Adds lit (· < g.nodes.length) made new) : g.cost new < g.rounds := by
  have hall : (List.range g.nodes.length).map g.share =
      g.nodes.map fun n => n.children.length + 1 := by
    refine List.ext_getElem (by simp) fun i hi hi' => ?_
    have hlt : i < g.nodes.length := by simpa using hi'
    simp [share, node?, hlt]
  have hsub : new.map Prod.fst ⊆ List.range g.nodes.length := fun j hj => by
    obtain ⟨p, hp, rfl⟩ := List.mem_map.mp hj
    exact List.mem_range.mpr (h.within p hp)
  have hle := sum_map_le_of_nodup (f := g.share) h.nodup hsub
  rw [hall, List.map_map, List.sum_map_add, List.map_const', List.sum_replicate, smul_eq_mul,
    mul_one, ← List.length_flatMap] at hle
  exact Nat.lt_succ_of_le hle

/-! ### Visits -/

/-- A node on top of the stack is taken from it, with its outline made and outlines added
for nodes below it only. -/
def Visits (g : Graph ν) (lit : ν → Outline) (i : ℕ) : Prop :=
  ∀ stack made, g.Sound lit made → ∃ new, g.Adds lit (ReflTransGen g.HasChild i) made new ∧
    ((new ++ made).lookup i).isSome = true ∧
    Rounds g lit (1 + g.cost new) ⟨(i, false) :: stack, made⟩ ⟨stack, new ++ made⟩

lemma isSome_lookup_append (h : (made.lookup i).isSome = true) (new : Made) :
    ((new ++ made).lookup i).isSome = true := by
  rw [List.lookup_append, Option.isSome_or, h, Bool.or_true]

/-- Nodes on top of the stack are taken from it one after another. -/
lemma visits_list {cs : List ℕ} (hcs : ∀ c ∈ cs, g.Visits lit c) (stack : List (ℕ × Bool))
    (hmade : g.Sound lit made) : ∃ new,
      g.Adds lit (fun j => ∃ c ∈ cs, ReflTransGen g.HasChild c j) made new ∧
      (∀ c ∈ cs, ((new ++ made).lookup c).isSome = true) ∧
      Rounds g lit (cs.length + g.cost new) ⟨cs.map (·, false) ++ stack, made⟩
        ⟨stack, new ++ made⟩ := by
  induction cs generalizing made with
  | nil => exact ⟨[], adds_nil _ _, List.forall_mem_nil _, .none _⟩
  | cons c cs ih =>
      obtain ⟨hc, hcs⟩ := List.forall_mem_cons.mp hcs
      obtain ⟨new, hnew, hlookup, hrounds⟩ := hc (cs.map (·, false) ++ stack) made hmade
      obtain ⟨new', hnew', hlookup', hrounds'⟩ := ih hcs (hnew.sound.append hmade)
      refine ⟨new' ++ new, ?_, List.forall_mem_cons.mpr ⟨?_, ?_⟩, ?_⟩
      · refine (hnew.mono fun j hj => ?_).append (hnew'.mono fun j hj => ?_)
        · exact ⟨c, List.mem_cons_self, hj⟩
        · obtain ⟨d, hd, hj⟩ := hj
          exact ⟨d, List.mem_cons_of_mem c hd, hj⟩
      · rw [List.append_assoc]
        exact isSome_lookup_append hlookup new'
      · rwa [List.append_assoc]
      · have hcount : (c :: cs).length + g.cost (new' ++ new) =
            1 + g.cost new + (cs.length + g.cost new') := by
          rw [cost_append, List.length_cons]
          omega
        rw [hcount, List.append_assoc]
        exact hrounds.append hrounds'

/-- **A node with a tree is visited**: it is entered, its children are visited, and it is
left with its outline made. -/
theorem Unfolds.visits (hg : g.Acyclic) (h : g.Unfolds i t) : g.Visits lit i := by
  induction h with
  | @node i n k hn hk ih =>
      intro stack made hmade
      cases hi : made.lookup i with
      | some o =>
          have hsome : (made.lookup i).isSome = true := by rw [hi]; rfl
          exact ⟨[], adds_nil _ _, hsome, (Round.skip hsome).rounds⟩
      | none =>
          have hvisits : ∀ c ∈ n.children.reverse, g.Visits lit c := fun c hc =>
            ih c (List.mem_reverse.mp hc)
          obtain ⟨new, hnew, hlookup, hrounds⟩ := visits_list hvisits ((i, true) :: stack) hmade
          have hnew : g.Adds lit (TransGen g.HasChild i) made new := hnew.mono fun j hj => by
            obtain ⟨c, hc, hj⟩ := hj
            exact .head' ⟨n, hn, List.mem_reverse.mp hc⟩ hj
          -- No node lies below itself, so that this one is still to be made.
          have hunmade : (new ++ made).lookup i = none := by
            rw [List.lookup_append, Option.or_eq_none_iff, List.lookup_eq_none_iff]
            refine ⟨fun p hp => bne_iff_ne.mpr ?_, hi⟩
            rintro rfl
            exact hg.loopless p.1 (hnew.within p hp)
          have hsound := hnew.sound.append hmade
          have hchildren : n.mapChildren? ((new ++ made).lookup ·) =
              some (n.map id fun c => (k c).outline lit) :=
            Node.mapChildren?_eq_some fun c hc =>
              hsound.lookup (hk c hc) (hlookup c (List.mem_reverse.mpr hc))
          have henter : Round g lit ⟨(i, false) :: stack, made⟩
              ⟨n.children.reverse.map (·, false) ++ (i, true) :: stack, made⟩ := by
            rw [List.map_reverse]
            exact .enter hi hn
          have hleave : Round g lit ⟨(i, true) :: stack, new ++ made⟩
              ⟨stack, (i, Tree.outline lit ⟨n.map id k, ()⟩) :: (new ++ made)⟩ := by
            rw [Tree.outline_eq, Tree.map_map_node]
            exact .leave hunmade hn hchildren
          refine ⟨[(i, Tree.outline lit ⟨n.map id k, ()⟩)] ++ new, ?_, ?_, ?_⟩
          · exact (hnew.mono fun j hj => hj.to_reflTransGen).append
              (adds_one hunmade .refl (.node hn hk))
          · simp
          · have hcount : 1 + g.cost ([(i, Tree.outline lit ⟨n.map id k, ()⟩)] ++ new) =
                1 + (n.children.reverse.length + g.cost new) + 1 := by
              rw [cost_append, cost, List.map_singleton, List.sum_cons, List.sum_nil, share, hn,
                List.length_reverse, Option.map_some, Option.getD_some]
              omega
            rw [hcount]
            exact (henter.rounds.append hrounds).append hleave.rounds

/-! ### Outlines -/

/-- Outlining a node with a stack comes to the outline of its tree. -/
structure Outlines (g : Graph ν) (lit : ν → Outline) (i : ℕ) (t : Tree ν Unit) : Prop where
  /-- the node has the tree, and it is found -/
  tree : g.Unfolds i t ∧ g.tree? i = some t
  /-- the outline of the tree is found -/
  outline : g.outline? lit i = some (t.outline lit)
  /-- it is what any recursion over the tree with these shapes gives -/
  shapes : ∀ f, Tree.Shapes lit f → g.outline? lit i = some (f t)
  /-- after so many rounds the stack is empty and the outline is made -/
  ends : ∃ k ≤ g.rounds, ∃ made, Rounds g lit k (.start i) ⟨[], made⟩ ∧
    made.lookup i = some (t.outline lit)
  /-- until then there is always another round -/
  goes_on : ∀ {k x}, Rounds g lit k (.start i) x → x.stack = [] ∨ ∃ y, Round g lit x y
  /-- when a node is left all its children are made -/
  ready : ∀ {k j stack made n}, Rounds g lit k (.start i) ⟨(j, true) :: stack, made⟩ →
    made.lookup j = none → g.node? j = some n → ∀ c ∈ n.children, (made.lookup c).isSome = true

/-- **Outlining with a stack is outlining the tree without sharing.** In an acyclic graph it
ends for every node, looks up no child that is not made, and gives the outline of the tree of
that node. -/
theorem Acyclic.outlines (hg : g.Acyclic) (hi : i < g.nodes.length) (lit : ν → Outline) :
    ∃ t, g.Outlines lit i t := by
  obtain ⟨t, hfound, ht⟩ := hg.exists_tree hi
  have hnil : g.Sound lit [] := fun p hp => absurd hp List.not_mem_nil
  obtain ⟨made, hadds, hlookup, hrounds⟩ := ht.visits hg [] [] hnil
  rw [List.append_nil] at hlookup hrounds
  have hresult := hadds.sound.lookup ht hlookup
  have hcost : 1 + g.cost made ≤ g.rounds := by
    have hnodes : g.Adds lit (· < g.nodes.length) [] made := hadds.mono fun j hj => by
      rcases hj.cases_tail with rfl | ⟨_, -, hj⟩
      · exact hi
      · exact hg.closed hj
    have := hnodes.cost_lt
    omega
  have goes_on : ∀ {k x}, Rounds g lit k (.start i) x → x.stack = [] ∨ ∃ y, Round g lit x y :=
    fun h => hrounds.goes_on rfl h
  have houtline : g.outline? lit i = some (t.outline lit) := by
    have hfuel := hrounds.outlineWithin_eq (g.rounds - (1 + g.cost made))
    rw [Nat.sub_add_cancel hcost] at hfuel
    rw [outline?, hfuel]
    simpa [outlineWithin] using hresult
  refine ⟨t, ⟨ht, hfound⟩, houtline, fun f hf => ?_, ⟨_, hcost, made, hrounds, hresult⟩, goes_on,
    ?_⟩
  · rw [houtline, Tree.shapes_iff.mp hf]
  · intro k j stack made n h hj hn
    rcases goes_on h with hstack | ⟨y, hy⟩
    · cases hstack
    · cases hy with
      | skip h => simp [hj] at h
      | leave _ hn' hm =>
          obtain rfl := Option.some.inj (hn.symm.trans hn')
          exact Node.isSome_of_mapChildren? hm

/-- A name that is both operands of a sum, and the sum in two rows of an array. -/
theorem Acyclic.outlines_sum :
    ∃ g : Graph Leaf, g = ⟨[.name "x", .arith 0 .plus 0, .array [[1, 0], [1]]]⟩ ∧
      g.Acyclic ∧ 2 < g.nodes.length ∧ ∃ t, g.Outlines Leaf.outline 2 t := by
  have hlt : ∀ {i c}, (⟨[.name "x", .arith 0 .plus 0, .array [[1, 0], [1]]]⟩ :
      Graph Leaf).HasChild i c → c < i := by
    rintro (_ | _ | _ | i) c ⟨n, hn, hc⟩
    all_goals simp only [node?, List.getElem?_cons_zero, List.getElem?_cons_succ,
      List.getElem?_nil, Option.some.injEq, reduceCtorEq] at hn
    all_goals
      subst hn
      simp [Node.children] at hc <;> omega
  exact ⟨_, rfl, acyclic_of_lt hlt, by simp, (acyclic_of_lt hlt).outlines (by simp) Leaf.outline⟩

end Graph

end ArrayExpr
