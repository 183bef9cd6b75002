/-
The reference grammar by the trees of its own productions.

* `Reference.Produces`: tokens derive from a nonterminal of the reference
  grammar, with the tree that the grammar gives them. There is one constructor
  for each alternative of

      assignment := comparison | comparison '=' assignment       -> assign
      comparison := sum | sum (compare sum)+                     -> comparison
      sum        := product | sum ('+' | '-') product            -> binop
      product    := signed | product ('*' | '/') signed          -> binop
      signed     := suffixed | '-' signed                        -> neg
      suffixed   := operand
                  | suffixed '(' items? ')'                      -> call
                  | suffixed '[' items ']'                       -> index
                  | suffixed '.' name                            -> field
      operand    := literal | name
                  | '(' assignment ')'                           -> group
                  | '[' (row (';' row)* ';'?)? ']'               -> array
      row        := items
      items      := assignment (',' assignment)* ','?

  The branch named behind an alternative has the trees of its nonterminals for
  parts, and the leaves of its operators, names and literals; punctuation
  leaves no part.
* `Reference.Renders`: tokens derive from a nonterminal, and an outline is the
  canonical form of their tree;
* `renders_iff_means`: **canonical forms are the outlines of derivations**, on
  tokens with their usual texts.
-/
import ArrayExpr.Proofs.Grammar.Subtrees
import ArrayExpr.Proofs.Reference.Soundness

namespace ArrayExpr

open Grammar

/-! ### Operators -/

/-- The operators of sums, one by one. -/
lemma Kind.isSumOp.cases {kind : Kind} {op : ArithOp} (h : kind.isSumOp op) :
    kind = .arith .plus ∨ kind = .arith .minus := by
  obtain ⟨h, rfl | rfl⟩ := h
  · exact Or.inl h
  · exact Or.inr h

/-- The operators of products, one by one. -/
lemma Kind.isProductOp.cases {kind : Kind} {op : ArithOp} (h : kind.isProductOp op) :
    kind = .arith .times ∨ kind = .arith .divide := by
  obtain ⟨h, rfl | rfl⟩ := h
  · exact Or.inl h
  · exact Or.inr h

/-! ### Words with usual texts -/

section Usual

variable {t : Token} {u v w : List Token}

lemma usual_append : Usual (v ++ w) ↔ Usual v ∧ Usual w := List.forall_mem_append

lemma usual_cons : Usual (t :: w) ↔ t.usual = t ∧ Usual w := List.forall_mem_cons

/-- Two words with an operator between them. -/
lemma usual_between : Usual (v ++ t :: w) ↔ Usual v ∧ t.usual = t ∧ Usual w := by
  rw [usual_append, usual_cons]

/-- A word inside a usual one is usual. -/
lemma Usual.within (h : Usual w) (hu : u <:+: w) : Usual u := fun t ht => h t (hu.mem ht)

/-- Brackets around a word. -/
lemma Usual.inside {o c : Token} (h : Usual (o :: u ++ [c])) : Usual u :=
  h.within (infix_bracket o c u)

/-- A word of a list. -/
lemma Usual.word {separator : Kind} {ws : List (List Token)} (h : Usual u)
    (hu : ListedOrNone separator ws u) (hw : w ∈ ws) : Usual w := h.within (hu.infix_of_mem hw)

end Usual

namespace Reference

/-! ### Productions -/

/-- Tokens with the tree that the grammar gives them. -/
structure Part where
  tokens : List Token
  tree : Outline

/-- A further operand of a comparison with the operator before it. -/
structure Side where
  token : Token
  right : Part

/-- The tokens of an operator and the operand behind it. -/
def Side.tokens (s : Side) : List Token := s.token :: s.right.tokens

/-- The parts that an operator and the operand behind it add to a branch. -/
def Side.parts (s : Side) : List Outline := [leaf s.token, s.right.tree]

/-- A row of an array: its tokens and its elements. -/
structure Line where
  tokens : List Token
  items : List Part

/-- The tree of a row. -/
def Line.tree (r : Line) : Outline := .branch "row" (r.items.map Part.tree)

/-- **Productions of the reference grammar.** The tokens derive from a
nonterminal, and the tree is the one of the derivation. -/
inductive Produces : Level → List Token → Outline → Prop
  | value {w : List Token} {x : Outline} (h : Produces .comparison w x) : Produces .assignment w x
  | assign {v w : List Token} {t : Token} {x y : Outline}
      (hv : Produces .comparison v x) (ht : t.kind = .assign) (hw : Produces .assignment w y) :
      Produces .assignment (v ++ t :: w) (.branch "assign" [x, y])
  | comparand {w : List Token} {x : Outline} (h : Produces .sum w x) : Produces .comparison w x
  | compare {w : List Token} {x : Outline} {sides : List Side}
      (hw : Produces .sum w x) (hne : sides ≠ [])
      (hop : ∀ s ∈ sides, ∃ op, s.token.kind = .compare op)
      (hs : ∀ s ∈ sides, Produces .sum s.right.tokens s.right.tree) :
      Produces .comparison (w ++ sides.flatMap Side.tokens)
        (.branch "comparison" (x :: sides.flatMap Side.parts))
  | term {w : List Token} {x : Outline} (h : Produces .product w x) : Produces .sum w x
  | add {v w : List Token} {t : Token} {x y : Outline} (hv : Produces .sum v x)
      (ht : t.kind = .arith .plus ∨ t.kind = .arith .minus) (hw : Produces .product w y) :
      Produces .sum (v ++ t :: w) (.branch "binop" [x, leaf t, y])
  | factor {w : List Token} {x : Outline} (h : Produces .signed w x) : Produces .product w x
  | multiply {v w : List Token} {t : Token} {x y : Outline} (hv : Produces .product v x)
      (ht : t.kind = .arith .times ∨ t.kind = .arith .divide) (hw : Produces .signed w y) :
      Produces .product (v ++ t :: w) (.branch "binop" [x, leaf t, y])
  | unsigned {w : List Token} {x : Outline} (h : Produces .suffixed w x) : Produces .signed w x
  | negate {t : Token} {w : List Token} {x : Outline} (ht : t.kind = .arith .minus)
      (hw : Produces .signed w x) : Produces .signed (t :: w) (.branch "neg" [leaf t, x])
  | bare {w : List Token} {x : Outline} (h : Produces .operand w x) : Produces .suffixed w x
  | call {v u : List Token} {o c : Token} {x : Outline} {args : List Part}
      (hv : Produces .suffixed v x) (ho : o.kind = .openParen) (hc : c.kind = .closeParen)
      (hu : ListedOrNone .comma (args.map Part.tokens) u)
      (ha : ∀ a ∈ args, Produces .assignment a.tokens a.tree) :
      Produces .suffixed (v ++ (o :: u ++ [c])) (.branch "call" (x :: args.map Part.tree))
  | index {v u : List Token} {o c : Token} {x : Outline} {args : List Part}
      (hv : Produces .suffixed v x) (ho : o.kind = .openBracket) (hc : c.kind = .closeBracket)
      (hu : Listed .comma (args.map Part.tokens) u)
      (ha : ∀ a ∈ args, Produces .assignment a.tokens a.tree) :
      Produces .suffixed (v ++ (o :: u ++ [c])) (.branch "index" (x :: args.map Part.tree))
  | field {v : List Token} {d t : Token} {x : Outline} (hv : Produces .suffixed v x)
      (hd : d.kind = .dot) (ht : t.kind = .name) :
      Produces .suffixed (v ++ [d, t]) (.branch "field" [x, leaf t])
  | literal {t : Token} {kind : LiteralKind} (ht : t.kind = .literal kind) :
      Produces .operand [t] (leaf t)
  | name {t : Token} (ht : t.kind = .name) : Produces .operand [t] (leaf t)
  | group {u : List Token} {o c : Token} {x : Outline} (ho : o.kind = .openParen)
      (hc : c.kind = .closeParen) (hu : Produces .assignment u x) :
      Produces .operand (o :: u ++ [c]) (.branch "group" [x])
  | array {u : List Token} {o c : Token} {rows : List Line}
      (ho : o.kind = .openBracket) (hc : c.kind = .closeBracket)
      (hu : ListedOrNone .semicolon (rows.map Line.tokens) u)
      (hr : ∀ r ∈ rows, Listed .comma (r.items.map Part.tokens) r.tokens)
      (ha : ∀ r ∈ rows, ∀ a ∈ r.items, Produces .assignment a.tokens a.tree) :
      Produces .operand (o :: u ++ [c]) (.branch "array" (rows.map Line.tree))

/-- The tokens derive from a nonterminal of the reference grammar, and the
outline is the canonical form of their tree. -/
def Renders (l : Level) (w : List Token) (x : Outline) : Prop :=
  ∃ tree, Produces l w tree ∧ canonical tree = x

variable {l l' : Level} {t : Token} {u v w : List Token} {x tree : Outline} {e : Expr}
  {ws : List (List Token)} {os : List Outline} {parts : List Part} {sides : List Side}
  {lines : List Line} {args : List Phrase} {links : List (Link CompareOp)} {rows : List Row}

/-! ### Canonical forms -/

/-- The leaf of an arithmetic operator is the one of the export. -/
lemma leaf_arith {op : ArithOp} (h : t.usual = t) (ht : t.kind = .arith op) :
    leaf t = op.outline := by
  rw [← h, leaf_usual_arith ht]

/-- So is the leaf of a comparison operator. -/
lemma leaf_compare {op : CompareOp} (h : t.usual = t) (ht : t.kind = .compare op) :
    leaf t = op.outline := by
  rw [← h, leaf_usual_compare ht]

/-- Leaves are kept. -/
@[simp] lemma canonical_leaf (t : Token) : canonical (leaf t) = leaf t := rfl

/-- The branches that the export has with the same parts. -/
lemma canonical_same {label : String} (h : label ∉ ["call", "index", "field", "neg"])
    (parts : List Outline) :
    canonical (.branch label parts) = .branch label (parts.map canonical) := by
  rw [canonical_branch]
  simp only [List.mem_cons, List.not_mem_nil, or_false, not_or] at h
  unfold reshape
  split <;> simp_all

/-- An operator is kept between its sides. -/
lemma canonical_binop (left op right : Outline) :
    canonical (.branch "binop" [left, op, right]) =
      .branch "binop" [canonical left, canonical op, canonical right] :=
  canonical_same (by simp) _

/-- The sign of a negation is left out. -/
lemma canonical_neg (sign operand : Outline) :
    canonical (.branch "neg" [sign, operand]) = .branch "neg" [canonical operand] := by
  rw [canonical_branch]
  rfl

/-- The arguments of a call are put in a branch of their own. -/
lemma canonical_call (callee : Outline) (args : List Outline) :
    canonical (.branch "call" (callee :: args)) =
      .branch "call" [canonical callee, .branch "args" (args.map canonical)] := by
  rw [canonical_branch, List.map_cons, reshape_call]

/-- An index is put behind its base. -/
lemma canonical_index (base : Outline) (subscripts : List Outline) :
    canonical (.branch "index" (base :: subscripts)) =
      extend (canonical base) (.branch "index" (subscripts.map canonical)) := by
  rw [canonical_branch, List.map_cons, reshape_index]

/-- So is a field. -/
lemma canonical_field (base : Outline) (t : Token) :
    canonical (.branch "field" [base, leaf t]) =
      extend (canonical base) (.branch "field" [leaf t]) := by
  rw [canonical_branch, List.map_cons, List.map_singleton, reshape_field, canonical_leaf]

/-- A row keeps its items. -/
lemma canonical_line (r : Line) :
    canonical r.tree = .branch "row" ((r.items.map Part.tree).map canonical) :=
  canonical_same (by simp) _

/-! ### From productions to derivations -/

/-- Words that mean something, in a list that may be empty. -/
lemma SeveralOrNone.of_listed {separator : Kind} {P : List Token → Outline → Prop}
    (hu : ListedOrNone separator ws u) (h : List.Forall₂ P ws os) :
    SeveralOrNone separator P os u := by
  rcases hu with ⟨rfl, rfl⟩ | hu
  · exact Or.inl ⟨List.forall₂_nil_left_iff.mp h, rfl⟩
  · exact Or.inr ⟨ws, hu, h⟩

/-- The words of parts with the canonical forms of their trees. -/
lemma forall₂_parts {P : List Token → Outline → Prop}
    (h : ∀ a ∈ parts, P a.tokens (canonical a.tree)) :
    List.Forall₂ P (parts.map Part.tokens) ((parts.map Part.tree).map canonical) := by
  rw [List.map_map, List.forall₂_map_left_iff, List.forall₂_map_right_iff, List.forall₂_same]
  exact h

/-- The rows of an array with the canonical forms of their trees. -/
lemma forall₂_lines (hr : ∀ r ∈ lines, Listed .comma (r.items.map Part.tokens) r.tokens)
    (h : ∀ r ∈ lines, ∀ a ∈ r.items, Means .assignment a.tokens (canonical a.tree)) :
    List.Forall₂ MeansRow (lines.map Line.tokens) ((lines.map Line.tree).map canonical) := by
  rw [List.map_map, List.forall₂_map_left_iff, List.forall₂_map_right_iff, List.forall₂_same]
  exact fun r hm => ⟨_, canonical_line r, _, hr r hm, forall₂_parts (h r hm)⟩

/-- Sides that derive are links. -/
lemma links_of_sides (hop : ∀ s ∈ sides, ∃ op, s.token.kind = .compare op)
    (hu : ∀ s ∈ sides, s.token.usual = s.token)
    (hs : ∀ s ∈ sides, Means .sum s.right.tokens (canonical s.right.tree)) :
    ∃ links : List (Link CompareOp), links.flatMap Link.tokens = sides.flatMap Side.tokens ∧
      linkOutlines links = (sides.flatMap Side.parts).map canonical ∧ (links = [] → sides = []) ∧
      (∀ l ∈ links, l.token.kind.isCompareOp l.op) ∧
      ∀ l ∈ links, Derives .sum l.right.tokens l.right.tree := by
  induction sides with
  | nil => exact ⟨[], rfl, rfl, fun _ => rfl, by simp, by simp⟩
  | cons s sides ih =>
      obtain ⟨⟨op, hk⟩, hop⟩ := List.forall_mem_cons.mp hop
      obtain ⟨husual, hu⟩ := List.forall_mem_cons.mp hu
      obtain ⟨⟨e, he, ho⟩, hs⟩ := List.forall_mem_cons.mp hs
      obtain ⟨links, htokens, houtlines, -, hops, hl⟩ := ih hop hu hs
      refine ⟨⟨s.token, op, ⟨s.right.tokens, e⟩⟩ :: links, ?_, ?_, by simp,
        List.forall_mem_cons.mpr ⟨hk, hops⟩, List.forall_mem_cons.mpr ⟨he, hl⟩⟩
      · rw [List.flatMap_cons, List.flatMap_cons, htokens]
        rfl
      · rw [linkOutlines, List.flatMap_cons, ← linkOutlines, houtlines, ho,
          ← leaf_compare husual hk]
        rfl

/-- The operands of a comparison with the operators between them. -/
lemma means_compare (hw : Means .sum w x) (hne : sides ≠ [])
    (hop : ∀ s ∈ sides, ∃ op, s.token.kind = .compare op)
    (hu : ∀ s ∈ sides, s.token.usual = s.token)
    (hs : ∀ s ∈ sides, Means .sum s.right.tokens (canonical s.right.tree)) :
    Means .comparison (w ++ sides.flatMap Side.tokens)
      (.branch "comparison" (x :: (sides.flatMap Side.parts).map canonical)) := by
  obtain ⟨e, he, rfl⟩ := hw
  obtain ⟨links, htokens, houtlines, hnil, hops, hl⟩ := links_of_sides hop hu hs
  rw [← htokens, ← houtlines]
  refine ⟨_, .compare he (fun h => hne (hnil h)) hops hl, ?_⟩
  rw [outline_node]
  simp [Node.map, Node.outline, linkOutlines, List.flatMap_map, Link.side]

/-- **The canonical form of a production is the outline of a derivation.** -/
theorem Produces.means (h : Produces l w tree) (hw : Usual w) : Means l w (canonical tree) := by
  induction h with
  | value _ ih => exact (ih hw).lift fun _ => .value
  | comparand _ ih => exact (ih hw).lift fun _ => .comparand
  | term _ ih => exact (ih hw).lift fun _ => .term
  | factor _ ih => exact (ih hw).lift fun _ => .factor
  | unsigned _ ih => exact (ih hw).lift fun _ => .unsigned
  | bare _ ih => exact (ih hw).bare
  | assign _ ht _ ihv ihw =>
      obtain ⟨hv, -, hw⟩ := usual_between.mp hw
      rw [canonical_same (by simp)]
      exact means_assign (ihv hv) ht (ihw hw)
  | @compare w x sides _ hne hop _ ihw ihs =>
      obtain ⟨hw, hsides⟩ := usual_append.mp hw
      have hside : ∀ s ∈ sides, Usual s.tokens := fun s hs t ht =>
        hsides t (List.mem_flatMap_of_mem hs ht)
      rw [canonical_same (by simp), List.map_cons]
      exact means_compare (ihw hw) hne hop (fun s hs => (usual_cons.mp (hside s hs)).1)
        fun s hs => ihs s hs (usual_cons.mp (hside s hs)).2
  | add _ ht _ ihv ihw =>
      obtain ⟨hv, hop, hw⟩ := usual_between.mp hw
      rw [canonical_binop, canonical_leaf]
      rcases ht with ht | ht <;> rw [leaf_arith hop ht]
      · exact means_add (ihv hv) ⟨ht, Or.inl rfl⟩ (ihw hw)
      · exact means_add (ihv hv) ⟨ht, Or.inr rfl⟩ (ihw hw)
  | multiply _ ht _ ihv ihw =>
      obtain ⟨hv, hop, hw⟩ := usual_between.mp hw
      rw [canonical_binop, canonical_leaf]
      rcases ht with ht | ht <;> rw [leaf_arith hop ht]
      · exact means_multiply (ihv hv) ⟨ht, Or.inl rfl⟩ (ihw hw)
      · exact means_multiply (ihv hv) ⟨ht, Or.inr rfl⟩ (ihw hw)
  | negate ht _ ih =>
      rw [canonical_neg]
      exact means_negate ht (ih (usual_cons.mp hw).2)
  | call _ ho hc hu _ ihv iha =>
      obtain ⟨hv, hbracket⟩ := usual_append.mp hw
      rw [canonical_call]
      exact means_call (ihv hv) ho hc (.of_listed hu (forall₂_parts fun a h =>
        iha a h (hbracket.inside.word hu (List.mem_map_of_mem h))))
  | index _ ho hc hu _ ihv iha =>
      obtain ⟨hv, hbracket⟩ := usual_append.mp hw
      rw [canonical_index]
      exact means_index (ihv hv) ho hc ⟨_, hu, forall₂_parts fun a h =>
        iha a h (hbracket.inside.word (Or.inr hu) (List.mem_map_of_mem h))⟩
  | field _ hd ht ih =>
      rw [canonical_field]
      exact means_field (ih (usual_append.mp hw).1) hd ht
  | literal ht => exact means_literal ht
  | name ht => exact means_name ht
  | group ho hc _ ih =>
      rw [canonical_same (by simp)]
      exact means_group ho hc (ih hw.inside)
  | array ho hc hu hr _ ih =>
      rw [canonical_same (by simp)]
      exact means_array ho hc (.of_listed hu (forall₂_lines hr fun r hm a h =>
        ih r hm a h ((hw.inside.word hu (List.mem_map_of_mem hm)).word
          (Or.inr (hr r hm)) (List.mem_map_of_mem h))))

/-! ### From derivations to productions -/

/-- One nonterminal derives from another with the same tree. -/
lemma Renders.lift (h : Renders l w x) (hl : ∀ tree, Produces l w tree → Produces l' w tree) :
    Renders l' w x := by
  obtain ⟨tree, htree, rfl⟩ := h
  exact ⟨tree, hl tree htree, rfl⟩

/-- Phrases that the grammar renders are parts. -/
lemma parts_of_phrases (h : ∀ a ∈ args, Renders l a.tokens (Expr.outline a.tree)) :
    ∃ parts : List Part, parts.map Part.tokens = args.map Phrase.tokens ∧
      (parts.map Part.tree).map canonical = (args.map Phrase.tree).map Expr.outline ∧
      ∀ a ∈ parts, Produces l a.tokens a.tree := by
  induction args with
  | nil => exact ⟨[], rfl, rfl, by simp⟩
  | cons a args ih =>
      obtain ⟨⟨tree, htree, hform⟩, h⟩ := List.forall_mem_cons.mp h
      obtain ⟨parts, htokens, hforms, hparts⟩ := ih h
      refine ⟨⟨a.tokens, tree⟩ :: parts, ?_, ?_, List.forall_mem_cons.mpr ⟨htree, hparts⟩⟩
      · rw [List.map_cons, List.map_cons, htokens]
      · simp only [List.map_cons, hform, hforms]

/-- Links that the grammar renders are sides. -/
lemma sides_of_links (hop : ∀ l ∈ links, l.token.kind.isCompareOp l.op)
    (hu : ∀ l ∈ links, l.token.usual = l.token)
    (hl : ∀ l ∈ links, Renders .sum l.right.tokens (Expr.outline l.right.tree)) :
    ∃ sides : List Side, sides.flatMap Side.tokens = links.flatMap Link.tokens ∧
      (sides.flatMap Side.parts).map canonical = linkOutlines links ∧ (sides = [] → links = []) ∧
      (∀ s ∈ sides, ∃ op, s.token.kind = .compare op) ∧
      ∀ s ∈ sides, Produces .sum s.right.tokens s.right.tree := by
  induction links with
  | nil => exact ⟨[], rfl, rfl, fun _ => rfl, by simp, by simp⟩
  | cons l links ih =>
      obtain ⟨hk, hop⟩ := List.forall_mem_cons.mp hop
      obtain ⟨husual, hu⟩ := List.forall_mem_cons.mp hu
      obtain ⟨⟨tree, htree, hform⟩, hl⟩ := List.forall_mem_cons.mp hl
      obtain ⟨sides, htokens, hforms, -, hops, hs⟩ := ih hop hu hl
      refine ⟨⟨l.token, ⟨l.right.tokens, tree⟩⟩ :: sides, ?_, ?_, by simp,
        List.forall_mem_cons.mpr ⟨⟨l.op, hk⟩, hops⟩, List.forall_mem_cons.mpr ⟨htree, hs⟩⟩
      · rw [List.flatMap_cons, List.flatMap_cons, htokens]
        rfl
      · rw [List.flatMap_cons, List.map_append, hforms, linkOutlines, linkOutlines,
          List.flatMap_cons, ← hform, ← leaf_compare husual hk]
        rfl

/-- Rows that the grammar renders are lines. -/
lemma lines_of_rows (hr : ∀ r ∈ rows, Listed .comma (r.items.map Phrase.tokens) r.tokens)
    (h : ∀ r ∈ rows, ∀ a ∈ r.items, Renders .assignment a.tokens (Expr.outline a.tree)) :
    ∃ lines : List Line, lines.map Line.tokens = rows.map Row.tokens ∧
      (lines.map Line.tree).map canonical =
        (rows.map Row.trees).map (fun row => .branch "row" (row.map Expr.outline)) ∧
      (∀ r ∈ lines, Listed .comma (r.items.map Part.tokens) r.tokens) ∧
      ∀ r ∈ lines, ∀ a ∈ r.items, Produces .assignment a.tokens a.tree := by
  induction rows with
  | nil => exact ⟨[], rfl, rfl, by simp, by simp⟩
  | cons r rows ih =>
      obtain ⟨hlisted, hr⟩ := List.forall_mem_cons.mp hr
      obtain ⟨hitems, h⟩ := List.forall_mem_cons.mp h
      obtain ⟨parts, htokens, hforms, hparts⟩ := parts_of_phrases hitems
      obtain ⟨lines, hline, hrows, hlist, hall⟩ := ih hr h
      refine ⟨⟨r.tokens, parts⟩ :: lines, ?_, ?_,
        List.forall_mem_cons.mpr ⟨htokens ▸ hlisted, hlist⟩,
        List.forall_mem_cons.mpr ⟨hparts, hall⟩⟩
      · rw [List.map_cons, List.map_cons, hline]
      · simp only [List.map_cons, hrows, canonical_line, hforms, Row.trees]

/-- **The outline of a derivation is the canonical form of a production.** -/
theorem renders_of_derives (h : Derives l w e) (hw : Usual w) :
    Renders l w (Expr.outline e) := by
  induction h with
  | value _ ih => exact (ih hw).lift fun _ => .value
  | comparand _ ih => exact (ih hw).lift fun _ => .comparand
  | term _ ih => exact (ih hw).lift fun _ => .term
  | factor _ ih => exact (ih hw).lift fun _ => .factor
  | unsigned _ ih => exact (ih hw).lift fun _ => .unsigned
  | bare _ ih => exact (ih hw).lift fun _ => .bare
  | assign _ ht _ ihv ihw =>
      obtain ⟨hv, -, hw⟩ := usual_between.mp hw
      obtain ⟨x, hx, hxo⟩ := ihv hv
      obtain ⟨y, hy, hyo⟩ := ihw hw
      refine ⟨_, .assign hx ht hy, ?_⟩
      rw [canonical_same (by simp), outline_node]
      simp [Node.map, Node.outline, hxo, hyo]
  | @compare w first links _ hne hop _ ihw ihl =>
      obtain ⟨hw, hlinks⟩ := usual_append.mp hw
      have hlink : ∀ l ∈ links, Usual l.tokens := fun l hl t ht =>
        hlinks t (List.mem_flatMap_of_mem hl ht)
      obtain ⟨x, hx, hxo⟩ := ihw hw
      obtain ⟨sides, htokens, hforms, hnil, hops, hs⟩ :=
        sides_of_links hop (fun l hl => (usual_cons.mp (hlink l hl)).1)
          fun l hl => ihl l hl (usual_cons.mp (hlink l hl)).2
      rw [← htokens]
      refine ⟨_, .compare hx (fun h => hne (hnil h)) hops hs, ?_⟩
      rw [canonical_same (by simp), List.map_cons, hforms, hxo, outline_node]
      simp [Node.map, Node.outline, linkOutlines, List.flatMap_map, Link.side]
  | add _ ht _ ihv ihw =>
      obtain ⟨hv, hop, hw⟩ := usual_between.mp hw
      obtain ⟨x, hx, hxo⟩ := ihv hv
      obtain ⟨y, hy, hyo⟩ := ihw hw
      refine ⟨_, .add hx ht.cases hy, ?_⟩
      rw [canonical_binop, canonical_leaf, hxo, hyo, leaf_arith hop ht.1, outline_node]
      rfl
  | multiply _ ht _ ihv ihw =>
      obtain ⟨hv, hop, hw⟩ := usual_between.mp hw
      obtain ⟨x, hx, hxo⟩ := ihv hv
      obtain ⟨y, hy, hyo⟩ := ihw hw
      refine ⟨_, .multiply hx ht.cases hy, ?_⟩
      rw [canonical_binop, canonical_leaf, hxo, hyo, leaf_arith hop ht.1, outline_node]
      rfl
  | negate ht _ ih =>
      obtain ⟨x, hx, hxo⟩ := ih (usual_cons.mp hw).2
      refine ⟨_, .negate ht hx, ?_⟩
      rw [canonical_neg, hxo, outline_node]
      rfl
  | call _ ho hc hu _ ihv iha =>
      obtain ⟨hv, hbracket⟩ := usual_append.mp hw
      obtain ⟨x, hx, hxo⟩ := ihv hv
      obtain ⟨parts, htokens, hforms, hparts⟩ := parts_of_phrases fun a h =>
        iha a h (hbracket.inside.word hu (List.mem_map_of_mem h))
      refine ⟨_, .call hx ho hc (htokens ▸ hu) hparts, ?_⟩
      rw [canonical_call, hxo, hforms, outline_node]
      rfl
  | index _ ho hc hu _ ihv iha =>
      obtain ⟨hv, hbracket⟩ := usual_append.mp hw
      obtain ⟨x, hx, hxo⟩ := ihv hv
      obtain ⟨parts, htokens, hforms, hparts⟩ := parts_of_phrases fun a h =>
        iha a h (hbracket.inside.word (Or.inr hu) (List.mem_map_of_mem h))
      refine ⟨_, .index hx ho hc (htokens ▸ hu) hparts, ?_⟩
      rw [canonical_index, hxo, hforms, outline_withStep, outline_node]
      rfl
  | @field v d t base _ hd ht ih =>
      obtain ⟨x, hx, hxo⟩ := ih (usual_append.mp hw).1
      refine ⟨_, .field hx hd ht, ?_⟩
      rw [canonical_field, hxo, outline_withStep, outline_node, leaf, ht]
      rfl
  | literal ht =>
      refine ⟨_, .literal ht, ?_⟩
      rw [canonical_leaf, outline_node, leaf, ht]
      rfl
  | name ht =>
      refine ⟨_, .name ht, ?_⟩
      rw [canonical_leaf, outline_node, leaf, ht]
      rfl
  | group ho hc _ ih =>
      obtain ⟨x, hx, hxo⟩ := ih hw.inside
      refine ⟨_, .group ho hc hx, ?_⟩
      rw [canonical_same (by simp), outline_node]
      simp [Node.map, Node.outline, hxo]
  | array ho hc hu hr _ ih =>
      obtain ⟨lines, htokens, hforms, hlist, hall⟩ := lines_of_rows hr fun r hm a h =>
        ih r hm a h ((hw.inside.word hu (List.mem_map_of_mem hm)).word
          (Or.inr (hr r hm)) (List.mem_map_of_mem h))
      refine ⟨_, .array ho hc (htokens ▸ hu) hlist hall, ?_⟩
      rw [canonical_same (by simp), hforms, outline_node]
      simp [Node.map, Node.outline]

/-- **Canonical forms of productions are the outlines of derivations**, on
tokens with their usual texts. -/
theorem renders_iff_means (hw : Usual w) : Renders l w x ↔ Means l w x := by
  constructor
  · rintro ⟨tree, h, rfl⟩
    exact h.means hw
  · rintro ⟨e, h, rfl⟩
    exact renders_of_derives h hw

end Reference

end ArrayExpr
