/-
The subtrees of a derivation.

* `Node.isStep`: the forms that stand only as steps of an access;
* `children_withStep`: the children of an operand with a step more;
* `Covers`: every node of a tree derives from tokens in a row inside a word,
  unless it is a step;
* `Derives.covers`: so does every node of the tree of a derivation;
* `Derives.assignment`: what derives from any level derives from the loosest;
* `AtMostOpen.of_infix`, `targetsValid_of_mem`: the conditions of a parse pass
  to subtrees.
-/
import ArrayExpr.Proofs.Grammar.Condition

namespace ArrayExpr

/-- The forms that stand only as steps of an access. -/
def Node.isStep {ν χ : Type} : Node ν χ → Bool
  | index _ | field _ => true
  | _ => false

/-- The targets of a subtree are targets. -/
lemma targetsValid_of_mem {ν σ : Type} {n t : Tree ν σ} (ht : TargetsValid t)
    (h : n ∈ t.preorder) : TargetsValid n :=
  fun m hm => ht m (Tree.preorder_subset h hm)

namespace Grammar

variable {l : Level} {u v w w' x : List Token} {ws : List (List Token)} {e n base step : Expr}
  {k : ℕ}

/-! ### Words inside words -/

lemma Listed.infix_of_mem {separator : Kind} (h : Listed separator ws u) (hx : x ∈ ws) :
    x <:+: u := by
  induction h with
  | last w => rw [List.mem_singleton.mp hx]
  | trailing w ht =>
      rw [List.mem_singleton.mp hx]
      exact (List.prefix_append _ _).isInfix
  | more w ht _ ih =>
      rcases List.mem_cons.mp hx with rfl | hx
      · exact (List.prefix_append _ _).isInfix
      · exact (ih hx).trans ((List.suffix_cons _ _).trans (List.suffix_append _ _)).isInfix

lemma ListedOrNone.infix_of_mem {separator : Kind} (h : ListedOrNone separator ws u)
    (hx : x ∈ ws) : x <:+: u := by
  rcases h with ⟨rfl, -⟩ | h
  · cases hx
  · exact h.infix_of_mem hx

lemma infix_bracket (o c : Token) (u : List Token) : u <:+: o :: u ++ [c] :=
  List.infix_append [o] u [c]

/-- Brackets inside balanced tokens are open at once no more often than in the
whole. -/
lemma AtMostOpen.of_infix (h : AtMostOpen k w) (hw : Balanced w) (hv : v <:+: w) :
    AtMostOpen k v := by
  obtain ⟨before, behind, rfl⟩ := hv
  intro u hu
  have hprefix : before ++ u <+: before ++ v ++ behind :=
    ((List.prefix_append_right_inj before).mpr hu).trans (List.prefix_append _ _)
  have hopen := h _ hprefix
  have hclosed := hw.closed_le before ((List.prefix_append before v).trans (List.prefix_append _ _))
  simp only [openBrackets, List.countP_append] at hopen ⊢
  omega

/-! ### Subtrees -/

/-- A tree derives from tokens in a row inside `w`. -/
def DerivesIn (w : List Token) (n : Expr) : Prop := ∃ l v, v <:+: w ∧ Derives l v n

/-- All nodes of a tree derive inside `w`, unless they are steps. -/
def Covers (w : List Token) (e : Expr) : Prop :=
  ∀ n ∈ e.preorder, n.node.isStep = true ∨ DerivesIn w n

lemma Covers.mono (h : Covers v e) (hv : v <:+: w) : Covers w e := fun n hn => by
  rcases h n hn with hstep | ⟨l, x, hx, hd⟩
  · exact .inl hstep
  · exact .inr ⟨l, x, hx.trans hv, hd⟩

/-- A tree that derives, over trees that are covered. -/
lemma covers_of_children (h : e.node.isStep = true ∨ DerivesIn w e)
    (hc : ∀ c ∈ e.children, Covers w c) : Covers w e := fun n hn => by
  rcases Tree.mem_preorder_iff.mp hn with rfl | ⟨c, hmem, hn⟩
  · exact h
  · exact hc c hmem n hn

/-- An operand with a step more is an access. -/
lemma exists_withStep_node (w : List Token) (base step : Expr) :
    ∃ inner steps, (withStep w base step).node = .access inner steps := by
  rw [withStep]
  split <;> exact ⟨_, _, rfl⟩

/-- Its children are the operand and the step, or those of an access and the step. -/
lemma children_withStep (w : List Token) (base step : Expr) :
    (withStep w base step).children = [base, step] ∨
      (∃ inner steps, base.node = .access inner steps) ∧
        (withStep w base step).children = base.children ++ [step] := by
  rcases base with ⟨m, span⟩
  cases m with
  | access inner steps => exact .inr ⟨⟨inner, steps, rfl⟩, rfl⟩
  | _ => exact .inl rfl

/-- What holds of an operand, of its children and of a step holds of the children of both. -/
lemma forall_children_withStep {P : Expr → Prop} (w : List Token) (hb : P base)
    (hc : ∀ c ∈ base.children, P c) (hs : P step) : ∀ c ∈ (withStep w base step).children, P c := by
  obtain hchildren | ⟨-, hchildren⟩ := children_withStep w base step
  · rw [hchildren]
    exact List.forall_mem_cons.mpr ⟨hb, List.forall_mem_singleton.mpr hs⟩
  · rw [hchildren]
    exact List.forall_mem_append.mpr ⟨hc, List.forall_mem_singleton.mpr hs⟩

/-- The steps that an access gets last are covered with its base. -/
lemma covers_withStep (h : DerivesIn w (withStep w base step)) (hb : Covers w base)
    (hs : Covers w step) : Covers w (withStep w base step) := by
  have hchildren : ∀ c ∈ base.children, Covers w c := fun c hc n hn =>
    hb n (Tree.mem_preorder_iff.mpr (.inr ⟨c, hc, hn⟩))
  exact covers_of_children (.inr h) (forall_children_withStep w hb hchildren hs)

lemma infix_left (v x : List Token) : v <:+: v ++ x := (List.prefix_append v x).isInfix

lemma infix_right (v x : List Token) : x <:+: v ++ x := (List.suffix_append v x).isInfix

/-- Phrases of a list are covered by the list. -/
lemma covers_phrases {args : List Phrase} (hu : ∀ x ∈ args.map Phrase.tokens, x <:+: w)
    (ha : ∀ a ∈ args, Covers a.tokens a.tree) : ∀ c ∈ args.map Phrase.tree, Covers w c := by
  intro c hc
  obtain ⟨a, hmem, rfl⟩ := List.mem_map.mp hc
  exact (ha a hmem).mono (hu _ (List.mem_map_of_mem hmem))

/-- Two trees with a token between them. -/
lemma covers_between {left right : Expr} {t : Token} (hv : Covers v left) (hw : Covers w right) :
    ∀ c ∈ [left, right], Covers (v ++ t :: w) c := by
  have hright : w <:+: v ++ t :: w := (List.suffix_cons t w).isInfix.trans (infix_right v _)
  simp only [List.mem_cons, List.not_mem_nil, or_false, forall_eq_or_imp, forall_eq]
  exact ⟨hv.mono (infix_left v _), hw.mono hright⟩

/-- **Every subtree of a derivation derives**, unless it is a step of an
access. -/
theorem Derives.covers (h : Derives l w e) : Covers w e := by
  induction h with
  | value _ ih | comparand _ ih | term _ ih | factor _ ih | unsigned _ ih | bare _ ih => exact ih
  | assign hv ht hw ihv ihw =>
      exact covers_of_children (.inr ⟨_, _, List.infix_rfl, .assign hv ht hw⟩)
        (covers_between ihv ihw)
  | add hv ht hw ihv ihw =>
      exact covers_of_children (.inr ⟨_, _, List.infix_rfl, .add hv ht hw⟩)
        (covers_between ihv ihw)
  | multiply hv ht hw ihv ihw =>
      exact covers_of_children (.inr ⟨_, _, List.infix_rfl, .multiply hv ht hw⟩)
        (covers_between ihv ihw)
  | @compare w first links hw hne hop hl ihw ihl =>
      refine covers_of_children (.inr ⟨_, _, List.infix_rfl, .compare hw hne hop hl⟩) ?_
      refine List.forall_mem_cons.mpr ⟨ihw.mono (infix_left w _), fun c hc => ?_⟩
      simp only [List.mem_map] at hc
      obtain ⟨_, ⟨l, hmem, rfl⟩, rfl⟩ := hc
      have hlink : l.tokens <:+: links.flatMap Link.tokens :=
        List.infix_of_mem_flatten (List.mem_map_of_mem hmem)
      exact (ihl l hmem).mono (((List.suffix_cons _ _).isInfix.trans hlink).trans (infix_right w _))
  | @negate t w e ht hw ih =>
      refine covers_of_children (.inr ⟨_, _, List.infix_rfl, .negate ht hw⟩) ?_
      exact List.forall_mem_singleton.mpr (ih.mono (List.suffix_cons t w).isInfix)
  | @call v u o c callee args hv ho hc hu ha ihv iha =>
      refine covers_of_children (.inr ⟨_, _, List.infix_rfl, .call hv ho hc hu ha⟩) ?_
      refine List.forall_mem_cons.mpr ⟨ihv.mono (infix_left v _), covers_phrases ?_ iha⟩
      exact fun x hx => ((hu.infix_of_mem hx).trans (infix_bracket o c u)).trans (infix_right v _)
  | @index v u o c base args hv ho hc hu ha ihv iha =>
      refine covers_withStep ⟨_, _, List.infix_rfl, .index hv ho hc hu ha⟩
        (ihv.mono (infix_left v _)) (covers_of_children (.inl rfl) (covers_phrases ?_ iha))
      exact fun x hx => ((hu.infix_of_mem hx).trans (infix_bracket o c u)).trans (infix_right v _)
  | @field v d t base hv hd ht ihv =>
      exact covers_withStep ⟨_, _, List.infix_rfl, .field hv hd ht⟩ (ihv.mono (infix_left v _))
        (covers_of_children (.inl rfl) (List.forall_mem_nil _))
  | literal ht =>
      exact covers_of_children (.inr ⟨_, _, List.infix_rfl, .literal ht⟩) (List.forall_mem_nil _)
  | name ht =>
      exact covers_of_children (.inr ⟨_, _, List.infix_rfl, .name ht⟩) (List.forall_mem_nil _)
  | @group u o c inner ho hc hu ih =>
      refine covers_of_children (.inr ⟨_, _, List.infix_rfl, .group ho hc hu⟩) ?_
      exact List.forall_mem_singleton.mpr (ih.mono (infix_bracket o c u))
  | @array u o c rows ho hc hu hr ha iha =>
      refine covers_of_children (.inr ⟨_, _, List.infix_rfl, .array ho hc hu hr ha⟩) ?_
      intro child hchild
      obtain ⟨trees, htrees, hchild⟩ := List.mem_flatten.mp hchild
      obtain ⟨r, hmem, rfl⟩ := List.mem_map.mp htrees
      have hrow : r.tokens <:+: o :: u ++ [c] :=
        (hu.infix_of_mem (List.mem_map_of_mem hmem)).trans (infix_bracket o c u)
      exact covers_phrases (fun x hx => ((hr r hmem).infix_of_mem hx).trans hrow) (iha r hmem)
        child hchild

/-- Whatever derives from a nonterminal derives from the loosest one. -/
theorem Derives.assignment (h : Derives l w e) : Derives .assignment w e := by
  cases l with
  | assignment => exact h
  | comparison => exact .value h
  | sum => exact .value (.comparand h)
  | product => exact .value (.comparand (.term h))
  | signed => exact .value (.comparand (.term (.factor h)))
  | suffixed => exact .value (.comparand (.term (.factor (.unsigned h))))
  | operand => exact .value (.comparand (.term (.factor (.unsigned (.bare h)))))

end Grammar

end ArrayExpr
