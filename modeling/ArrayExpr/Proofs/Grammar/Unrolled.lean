/-
Derivations with their repetitions unrolled.

* `Derives.ne_nil`, `Derives.span_eq`: a derivation has a token, and its tree
  spans all of them;
* `Grammar.Within`: a derivation whose tree fits;
* `within_sum_iff`, `within_product_iff`: operands with operators between them,
  folded from the left;
* `within_comparison_iff`: operands with comparisons between them;
* `within_signed_iff`: minus signs before an operand;
* `within_suffixed_iff`: an operand with its suffixes attached;
* `within_assignment_iff`: the sides of an assignment, folded from the right;
* `Listed.exists_items`: the first item of a list, the further ones with the
  separators before them, and a separator at the end if there is one.
-/
import ArrayExpr.Parser.Operator
import ArrayExpr.Proofs.Grammar.Condition
import ArrayExpr.Proofs.Rule.Stream

namespace ArrayExpr

namespace Grammar

variable {strict : Prop} {n : ℕ} {l : Level} {t o c : Token} {u v w : List Token} {e : Expr}

/-! ### Extents of derivations -/

lemma Derives.ne_nil (h : Derives l w e) : w ≠ [] := by
  induction h with
  | value _ ih | comparand _ ih | term _ ih | factor _ ih | unsigned _ ih | bare _ ih => exact ih
  | compare _ _ _ _ ih => simp [ih]
  | _ => simp

@[simp] lemma node_span (w : List Token) (m : Node Literal Expr) : (node w m).span = extent w := rfl

@[simp] lemma withStep_span (w : List Token) (base step : Expr) :
    (withStep w base step).span = extent w := by
  rw [withStep]
  split <;> rfl

/-- **The tree of a derivation spans its tokens.** -/
lemma Derives.span_eq (h : Derives l w e) : e.span = extent w := by
  induction h with
  | value _ ih | comparand _ ih | term _ ih | factor _ ih | unsigned _ ih | bare _ ih => exact ih
  | _ => simp

/-- A derivation whose tree fits. -/
def Within (strict : Prop) (n : ℕ) (l : Level) (w : List Token) (e : Expr) : Prop :=
  Derives l w e ∧ Fits strict n w e

lemma Within.ne_nil (h : Within strict n l w e) : w ≠ [] := h.1.ne_nil

lemma Within.span_eq (h : Within strict n l w e) : e.span = extent w := h.1.span_eq

lemma Within.balanced (h : Within strict n l w e) : Balanced w := h.1.balanced

lemma openBrackets_le_length (w : List Token) : openBrackets w ≤ w.length :=
  (Nat.sub_le _ _).trans List.countP_le_length

/-- Every derivation fits the conditions that ask for nothing. -/
lemma Derives.within (h : Derives l w e) : Within False w.length l w e :=
  ⟨h, False.elim, fun _ hu => (openBrackets_le_length _).trans hu.length_le, False.elim⟩

/-! ### Sums and products -/

/-- A node with both sides spans their tokens. -/
lemma extent_sides {left right : Expr} (hv : v ≠ []) (hw : w ≠ [])
    (hl : left.span = extent v) (hr : right.span = extent w) :
    left.span.through right.span = extent (v ++ t :: w) := by
  rw [hl, hr, ← extent_through hv (by simp : t :: w ≠ []), Span.through, Span.through,
    ← List.singleton_append, extent_append_stop [t] hw]

/-- Operands with operators between them. -/
structure Chain {ω : Type} (isOp : Kind → ω → Prop) (operand : List Token → Expr → Prop)
    (first : Phrase) (links : List (Link ω)) : Prop where
  first : operand first.tokens first.tree
  ops : ∀ l ∈ links, isOp l.token.kind l.op
  rights : ∀ l ∈ links, operand l.right.tokens l.right.tree

/-- The tokens of a chain. -/
def chainTokens {ω : Type} (first : Phrase) (links : List (Link ω)) : List Token :=
  first.tokens ++ links.flatMap Link.tokens

/-- The tree of a chain of arithmetic operators. -/
def chainTree (first : Phrase) (links : List (Link ArithOp)) : Expr :=
  (links.map Link.side).foldl Expr.arithWith first.tree

section Chain

variable {ω : Type} {isOp : Kind → ω → Prop} {operand : List Token → Expr → Prop}
  {first : Phrase} {links : List (Link ω)} {x : Link ω}

lemma chainTokens_concat :
    chainTokens first (links ++ [x]) = chainTokens first links ++ x.token :: x.right.tokens := by
  simp [chainTokens, Link.tokens]

lemma chain_nil_iff : Chain isOp operand first [] ↔ operand first.tokens first.tree :=
  ⟨fun h => h.first, fun h => ⟨h, by simp, by simp⟩⟩

lemma chain_concat_iff :
    Chain isOp operand first (links ++ [x]) ↔
      Chain isOp operand first links ∧ isOp x.token.kind x.op ∧
        operand x.right.tokens x.right.tree := by
  constructor
  · rintro ⟨h1, h2, h3⟩
    simp only [List.forall_mem_append, List.forall_mem_singleton] at h2 h3
    exact ⟨⟨h1, h2.1, h3.1⟩, h2.2, h3.2⟩
  · rintro ⟨⟨h1, h2, h3⟩, h4, h5⟩
    exact ⟨h1, List.forall_mem_append.mpr ⟨h2, List.forall_mem_singleton.mpr h4⟩,
      List.forall_mem_append.mpr ⟨h3, List.forall_mem_singleton.mpr h5⟩⟩

end Chain

section Arith

variable {isOp : Kind → ArithOp → Prop} {outer inner : Level} {first : Phrase}
  {links : List (Link ArithOp)} {op : ArithOp} {left right : Expr}

lemma chainTree_concat {x : Link ArithOp} :
    chainTree first (links ++ [x]) = Expr.arithWith (chainTree first links) x.side := by
  simp [chainTree]

lemma isNeutral_arith {op : ArithOp} (h : t.kind = .arith op) : IsNeutral t :=
  isNeutral_of_kind h ⟨rfl, rfl⟩ (by simp)

/-- A chain is a tree that grows from the left. -/
private lemma within_of_chain
    (hbare : ∀ {w e}, Derives inner w e → Derives outer w e)
    (hop : ∀ {v w t op left right}, Derives outer v left → isOp t.kind op → Derives inner w right →
      Derives outer (v ++ t :: w) (node (v ++ t :: w) (.arith left op right)))
    (hkind : ∀ {kind op}, isOp kind op → kind = .arith op)
    (hc : Chain isOp (Within strict n inner) first links) :
    Within strict n outer (chainTokens first links) (chainTree first links) := by
  induction links using List.reverseRecOn with
  | nil =>
      rw [chainTokens, List.flatMap_nil, List.append_nil]
      exact ⟨hbare hc.first.1, hc.first.2⟩
  | append_singleton links x ih =>
      obtain ⟨hc, hx, hr⟩ := chain_concat_iff.mp hc
      have hl := ih hc
      have heq : chainTree first (links ++ [x]) =
          node (chainTokens first links ++ x.token :: x.right.tokens)
            (.arith (chainTree first links) x.op x.right.tree) := by
        rw [chainTree_concat, Expr.arithWith, node,
          ← extent_sides hl.ne_nil hr.ne_nil hl.span_eq hr.span_eq]
        rfl
      rw [chainTokens_concat, heq]
      exact ⟨hop hl.1 hx hr.1,
        (fits_arith hl.balanced (isNeutral_arith (hkind hx))).mpr ⟨hl.2, hr.2⟩⟩

/-- A chain goes on with one operand more. -/
private lemma exists_chain_concat (hv : Derives outer v left)
    (hl : ∃ first links, Chain isOp (Within strict n inner) first links ∧
      v = chainTokens first links ∧ left = chainTree first links)
    (ht : isOp t.kind op) (hr : Within strict n inner w right) :
    ∃ first links, Chain isOp (Within strict n inner) first links ∧
      v ++ t :: w = chainTokens first links ∧
      node (v ++ t :: w) (.arith left op right) = chainTree first links := by
  obtain ⟨first, links, hc, rfl, rfl⟩ := hl
  refine ⟨first, links ++ [⟨t, op, w, right⟩], chain_concat_iff.mpr ⟨hc, ht, hr⟩,
    by rw [chainTokens_concat], ?_⟩
  rw [chainTree_concat, Expr.arithWith, node, ← extent_sides hv.ne_nil hr.ne_nil hv.span_eq
    hr.span_eq]
  rfl

/-- **A product is a chain of factors.** -/
lemma within_product_iff :
    Within strict n .product w e ↔ ∃ first links,
      Chain Kind.isProductOp (Within strict n .signed) first links ∧
        w = chainTokens first links ∧ e = chainTree first links := by
  constructor
  · rintro ⟨h, hf⟩
    generalize hl : Level.product = l at h
    induction h with
    | @factor w e h =>
        exact ⟨⟨w, e⟩, [], chain_nil_iff.mpr ⟨h, hf⟩, by simp [chainTokens], rfl⟩
    | multiply hv ht hw ihv =>
        obtain ⟨hfv, hfw⟩ := (fits_arith hv.balanced (isNeutral_arith ht.1)).mp hf
        exact exists_chain_concat hv (ihv hfv hl) ht ⟨hw, hfw⟩
    | _ => cases hl
  · rintro ⟨first, links, hc, rfl, rfl⟩
    exact within_of_chain .factor .multiply (fun h => h.1) hc

/-- **A sum is a chain of products.** -/
lemma within_sum_iff :
    Within strict n .sum w e ↔ ∃ first links,
      Chain Kind.isSumOp (Within strict n .product) first links ∧
        w = chainTokens first links ∧ e = chainTree first links := by
  constructor
  · rintro ⟨h, hf⟩
    generalize hl : Level.sum = l at h
    induction h with
    | @term w e h =>
        exact ⟨⟨w, e⟩, [], chain_nil_iff.mpr ⟨h, hf⟩, by simp [chainTokens], rfl⟩
    | add hv ht hw ihv =>
        obtain ⟨hfv, hfw⟩ := (fits_arith hv.balanced (isNeutral_arith ht.1)).mp hf
        exact exists_chain_concat hv (ihv hfv hl) ht ⟨hw, hfw⟩
    | _ => cases hl
  · rintro ⟨first, links, hc, rfl, rfl⟩
    exact within_of_chain .term .add (fun h => h.1) hc

end Arith

/-! ### Comparisons -/

/-- A chain of comparisons is one node over all of its tokens. -/
lemma compareWith_eq {first : Phrase} {links : List (Link CompareOp)}
    (hc : Chain Kind.isCompareOp (Within strict n .sum) first links) (hne : links ≠ []) :
    Expr.compareWith first.tree (links.map Link.side) =
      node (chainTokens first links) (.comparison first.tree (links.map Link.side)) := by
  obtain ⟨before, x, rfl⟩ := (List.eq_nil_or_concat' links).resolve_left hne
  have hx := (chain_concat_iff.mp hc).2.2
  have hne : first.tokens ++ before.flatMap Link.tokens ≠ [] := by simp [hc.first.ne_nil]
  have hspan : first.tree.span.through x.right.tree.span =
      extent (chainTokens first (before ++ [x])) := by
    rw [chainTokens_concat, chainTokens,
      ← extent_sides hne hx.ne_nil (node_span _ (.name "")) hx.span_eq, hc.first.span_eq, node_span,
      Span.through, Span.through, extent_append_start hc.first.ne_nil]
  rw [node, ← hspan, Expr.compareWith, List.map_append, List.map_singleton, List.getLast?_concat]
  rfl

/-- **A comparison is a chain of sums.** -/
lemma within_comparison_iff :
    Within strict n .comparison w e ↔ ∃ first links,
      Chain Kind.isCompareOp (Within strict n .sum) first links ∧
        w = chainTokens first links ∧ e = Expr.compareWith first.tree (links.map Link.side) := by
  constructor
  · rintro ⟨h, hf⟩
    cases h with
    | @comparand w e h =>
        exact ⟨⟨w, e⟩, [], chain_nil_iff.mpr ⟨h, hf⟩, by simp [chainTokens], rfl⟩
    | @compare w first links hw hne hop hl =>
        obtain ⟨hfw, hfl⟩ := (fits_comparison hw.balanced hop fun l h => (hl l h).balanced).mp hf
        have hc : Chain Kind.isCompareOp (Within strict n .sum) ⟨w, first⟩ links :=
          ⟨⟨hw, hfw⟩, hop, fun l h => ⟨hl l h, hfl l h⟩⟩
        exact ⟨⟨w, first⟩, links, hc, rfl, (compareWith_eq hc hne).symm⟩
  · rintro ⟨first, links, hc, rfl, rfl⟩
    by_cases hne : links = []
    · subst hne
      rw [chainTokens, List.flatMap_nil, List.append_nil]
      exact ⟨.comparand hc.first.1, hc.first.2⟩
    · rw [compareWith_eq hc hne]
      exact ⟨.compare hc.first.1 hne hc.ops fun l h => (hc.rights l h).1,
        (fits_comparison hc.first.balanced hc.ops fun l h => (hc.rights l h).balanced).mpr
          ⟨hc.first.2, fun l h => (hc.rights l h).2⟩⟩

/-! ### Minus signs -/

/-- An operand under the minus signs before it. -/
def signedTree (signs : List Token) (operand : Expr) : Expr :=
  (signs.map fun t => Span.point t.start.offset).foldr Expr.negateFrom operand

lemma negateFrom_eq (hw : w ≠ []) (he : e.span = extent w) :
    Expr.negateFrom (.point t.start.offset) e = node (t :: w) (.negate e) := by
  rw [Expr.negateFrom, node, he, ← List.singleton_append (l := w), ← extent_through (by simp) hw]
  rfl

/-- **A signed operand is an operand with its suffixes after minus signs.** -/
lemma within_signed_iff :
    Within strict n .signed w e ↔ ∃ signs v operand,
      (∀ t ∈ signs, t.kind = .arith .minus) ∧ Within strict n .suffixed v operand ∧
        w = signs ++ v ∧ e = signedTree signs operand := by
  constructor
  · rintro ⟨h, hf⟩
    generalize hl : Level.signed = l at h
    induction h with
    | @unsigned w e h => exact ⟨[], w, e, by simp, ⟨h, hf⟩, rfl, rfl⟩
    | @negate t w e ht hw ih =>
        obtain ⟨signs, v, operand, hs, hv, hw', he⟩ := ih ((fits_negate ht).mp hf) hl
        refine ⟨t :: signs, v, operand, List.forall_mem_cons.mpr ⟨ht, hs⟩, hv, by rw [hw']; rfl, ?_⟩
        rw [← negateFrom_eq hw.ne_nil hw.span_eq, he]
        rfl
    | _ => cases hl
  · rintro ⟨signs, v, operand, hs, hv, rfl, rfl⟩
    induction signs with
    | nil => exact ⟨.unsigned hv.1, hv.2⟩
    | cons t signs ih =>
        have ih := ih fun t ht => hs t (List.mem_cons_of_mem _ ht)
        have ht := hs t List.mem_cons_self
        have heq : signedTree (t :: signs) operand =
            node (t :: (signs ++ v)) (.negate (signedTree signs operand)) := by
          rw [← negateFrom_eq ih.ne_nil ih.span_eq]
          rfl
        rw [List.cons_append, heq]
        exact ⟨.negate ht ih.1, (fits_negate ht).mpr ih.2⟩

/-! ### Suffixes -/

/-- Tokens that are a suffix. -/
inductive IsSuffix (strict : Prop) : ℕ → List Token → Suffix → Prop
  | call {m : ℕ} {u : List Token} {o c : Token} {args : List Phrase}
      (ho : o.kind = .openParen) (hc : c.kind = .closeParen)
      (hu : ListedOrNone .comma (args.map Phrase.tokens) u)
      (ha : ∀ a ∈ args, Within strict m .assignment a.tokens a.tree) :
      IsSuffix strict (m + 1) (o :: u ++ [c])
        (.call (args.map Phrase.tree) (extent (o :: u ++ [c])))
  | index {m : ℕ} {u : List Token} {o c : Token} {args : List Phrase}
      (ho : o.kind = .openBracket) (hc : c.kind = .closeBracket)
      (hu : Listed .comma (args.map Phrase.tokens) u)
      (ha : ∀ a ∈ args, Within strict m .assignment a.tokens a.tree) :
      IsSuffix strict (m + 1) (o :: u ++ [c])
        (.step (node (o :: u ++ [c]) (.index (args.map Phrase.tree))))
  | field {n : ℕ} {d t : Token} (hd : d.kind = .dot) (ht : t.kind = .name) :
      IsSuffix strict n [d, t] (.step (node [d, t] (.field (t.text.getD ""))))

/-- A suffix with its tokens. -/
structure SuffixPhrase where
  tokens : List Token
  suffix : Suffix

/-- An operand with one suffix more. -/
def withSuffix (e : Expr) : Suffix → Expr
  | .call args span => ⟨.call e args, e.span.through span⟩
  | .step s =>
    match e.node with
    | .access base steps => ⟨.access base (steps ++ [s]), e.span.through s.span⟩
    | _ => ⟨.access e [s], e.span.through s.span⟩

/-- Whether a tree is an operand with steps after it. -/
def isAccess (e : Expr) : Bool :=
  match e.node with
  | .access _ _ => true
  | _ => false

/-- **Suffixes are attached one by one, from the left.** -/
lemma attach_concat {base : Expr} (hb : isAccess base = false) (steps : List Expr)
    (suffixes : List Suffix) (x : Suffix) :
    Suffix.attach base steps (suffixes ++ [x]) =
      withSuffix (Suffix.attach base steps suffixes) x := by
  induction suffixes generalizing base steps with
  | nil =>
      cases x with
      | call args span => rfl
      | step s =>
          cases steps with
          | nil =>
              simp only [List.nil_append, Suffix.attach, Suffix.access, withSuffix]
              split
              · rename_i h
                simp [isAccess, h] at hb
              · rfl
          | cons last before => simp [Suffix.attach, Suffix.access, withSuffix, Span.through]
  | cons y suffixes ih =>
      cases y with
      | call args span => exact ih rfl _
      | step s => exact ih hb _

lemma Derives.not_isAccess (h : Derives .operand w e) : isAccess e = false := by
  cases h <;> rfl

lemma IsSuffix.ne_nil {x : Suffix} (h : IsSuffix strict n u x) : u ≠ [] := by
  cases h <;> simp

/-- A call more is a node over all tokens. -/
lemma withSuffix_call {args : List Expr} (hv : v ≠ []) (hu : u ≠ []) (he : e.span = extent v) :
    withSuffix e (.call args (extent u)) = node (v ++ u) (.call e args) := by
  rw [withSuffix, node, he, extent_through hv hu]

/-- A step more is a node over all tokens. -/
lemma withSuffix_step {s : Expr} (hv : v ≠ []) (hu : u ≠ []) (he : e.span = extent v)
    (hs : s.span = extent u) : withSuffix e (.step s) = withStep (v ++ u) e s := by
  have hspan : e.span.through s.span = extent (v ++ u) := by rw [he, hs, extent_through hv hu]
  rcases e with ⟨m, span⟩
  cases m <;> simp only [withSuffix, withStep, node, hspan]

/-- **A suffix more makes a longer operand.** -/
lemma Within.suffix {x : Suffix} (hv : Within strict n .suffixed v e)
    (hx : IsSuffix strict n u x) : Within strict n .suffixed (v ++ u) (withSuffix e x) := by
  have hu' := hx.ne_nil
  cases hx with
  | @call m u o c args ho hc hu ha =>
      rw [withSuffix_call hv.ne_nil hu' hv.span_eq]
      exact ⟨.call hv.1 ho hc hu fun a h => (ha a h).1,
        (fits_call hv.balanced ho hc hu fun a h => (ha a h).balanced).mpr
          ⟨hv.2, m, rfl, fun a h => (ha a h).2⟩⟩
  | @index m u o c args ho hc hu ha =>
      rw [withSuffix_step hv.ne_nil hu' hv.span_eq rfl]
      exact ⟨.index hv.1 ho hc hu fun a h => (ha a h).1,
        (fits_index hv.balanced ho hc hu fun a h => (ha a h).balanced).mpr
          ⟨hv.2, m, rfl, fun a h => (ha a h).2⟩⟩
  | @field n d t hd ht =>
      rw [withSuffix_step hv.ne_nil hu' hv.span_eq rfl]
      exact ⟨.field hv.1 hd ht, (fits_field hv.balanced hd ht).mpr hv.2⟩

/-- **An operand that has suffixes is a shorter one with one suffix more.** -/
lemma Within.suffixed_cases (h : Within strict n .suffixed w e) :
    Within strict n .operand w e ∨ ∃ v base u x, Within strict n .suffixed v base ∧
      IsSuffix strict n u x ∧ w = v ++ u ∧ e = withSuffix base x := by
  obtain ⟨h, hf⟩ := h
  cases h with
  | bare h => exact Or.inl ⟨h, hf⟩
  | @call v u o c callee args hv ho hc hu ha =>
      obtain ⟨hfv, m, rfl, hfa⟩ :=
        (fits_call hv.balanced ho hc hu fun a h => (ha a h).balanced).mp hf
      refine Or.inr ⟨v, callee, _, _, ⟨hv, hfv⟩, .call ho hc hu fun a h => ⟨ha a h, hfa a h⟩,
        rfl, (withSuffix_call hv.ne_nil (by simp) hv.span_eq).symm⟩
  | @index v u o c base args hv ho hc hu ha =>
      obtain ⟨hfv, m, rfl, hfa⟩ :=
        (fits_index hv.balanced ho hc hu fun a h => (ha a h).balanced).mp hf
      refine Or.inr ⟨v, base, _, _, ⟨hv, hfv⟩, .index ho hc hu fun a h => ⟨ha a h, hfa a h⟩,
        rfl, (withSuffix_step hv.ne_nil (by simp) hv.span_eq rfl).symm⟩
  | @field v d t base hv hd ht =>
      refine Or.inr ⟨v, base, _, _, ⟨hv, (fits_field hv.balanced hd ht).mp hf⟩, .field hd ht,
        rfl, (withSuffix_step hv.ne_nil (by simp) hv.span_eq rfl).symm⟩

/-- **An operand with suffixes has them attached one after another.** -/
lemma within_suffixed_iff :
    Within strict n .suffixed w e ↔ ∃ v base, ∃ suffixes : List SuffixPhrase,
      Within strict n .operand v base ∧
        (∀ x ∈ suffixes, IsSuffix strict n x.tokens x.suffix) ∧
        w = v ++ suffixes.flatMap SuffixPhrase.tokens ∧
        e = Suffix.attach base [] (suffixes.map SuffixPhrase.suffix) := by
  constructor
  · intro h
    induction hn : w.length using Nat.strong_induction_on generalizing w e with
    | _ k ih =>
        rcases h.suffixed_cases with h | ⟨v, base, u, x, hv, hx, rfl, rfl⟩
        · exact ⟨w, e, [], h, by simp, by simp, rfl⟩
        · have hlt : v.length < k := by
            have := List.length_pos_iff.mpr hx.ne_nil
            rw [List.length_append] at hn
            omega
          obtain ⟨v, base, suffixes, hb, hs, rfl, rfl⟩ := ih v.length hlt hv rfl
          refine ⟨v, base, suffixes ++ [⟨u, x⟩], hb, List.forall_mem_append.mpr
            ⟨hs, List.forall_mem_singleton.mpr hx⟩, by simp, ?_⟩
          rw [List.map_append, List.map_singleton, attach_concat hb.1.not_isAccess]
  · rintro ⟨v, base, suffixes, hb, hs, rfl, rfl⟩
    induction suffixes using List.reverseRecOn with
    | nil =>
        rw [List.flatMap_nil, List.append_nil]
        exact ⟨.bare hb.1, hb.2⟩
    | append_singleton suffixes x ih =>
        rw [List.forall_mem_append, List.forall_mem_singleton] at hs
        rw [List.map_append, List.map_singleton, attach_concat hb.1.not_isAccess,
          List.flatMap_append, List.flatMap_singleton, ← List.append_assoc]
        exact (ih hs.1).suffix hs.2

/-! ### Assignments -/

/-- The sides of an assignment after the first one: `others` are their trees,
and `u` the tokens from the first `=` on. Each side that a `=` follows is a
target. -/
inductive Sides (strict : Prop) (n : ℕ) : Expr → List Expr → List Token → Prop
  | last (before : Expr) : Sides strict n before [] []
  | more {before next : Expr} {t : Token} {w u : List Token} {others : List Expr}
      (hb : strict → IsTarget before) (ht : t.kind = .assign)
      (hw : Within strict n .comparison w next) (hu : Sides strict n next others u) :
      Sides strict n before (next :: others) (t :: w ++ u)

/-- **An assignment has sides with `=` between them.** -/
lemma within_assignment_iff :
    Within strict n .assignment w e ↔ ∃ v u first others,
      Within strict n .comparison v first ∧ Sides strict n first others u ∧ w = v ++ u ∧
        e = Expr.assignAll first others := by
  constructor
  · rintro ⟨h, hf⟩
    generalize hl : Level.assignment = l at h
    induction h with
    | @value w e h => exact ⟨w, [], e, [], ⟨h, hf⟩, .last e, by simp, rfl⟩
    | @assign v w t target value hv ht hw _ ihw =>
        obtain ⟨htarget, hfv, hfw⟩ := (fits_assign hv.balanced ht).mp hf
        obtain ⟨x, u, first, others, hx, hu, hw', he⟩ := ihw hfw hl
        refine ⟨v, t :: x ++ u, target, first :: others, ⟨hv, hfv⟩, .more htarget ht hx hu,
          by rw [hw']; rfl, ?_⟩
        rw [Expr.assignAll, ← he, Expr.assignTo, node,
          extent_sides hv.ne_nil hw.ne_nil hv.span_eq hw.span_eq]
    | _ => cases hl
  · rintro ⟨v, u, first, others, hv, hu, rfl, rfl⟩
    induction hu generalizing v with
    | last before =>
        rw [List.append_nil]
        exact ⟨.value hv.1, hv.2⟩
    | @more before next t w u others hb ht hw hu ih =>
        have ih := ih w hw
        have heq : Expr.assignAll before (next :: others) =
            node (v ++ t :: (w ++ u)) (.assign before (Expr.assignAll next others)) := by
          rw [Expr.assignAll, Expr.assignTo, node,
            extent_sides hv.ne_nil ih.ne_nil hv.span_eq ih.span_eq]
        rw [List.cons_append, heq]
        exact ⟨.assign hv.1 ht ih.1, (fits_assign hv.balanced ht).mpr ⟨hb, hv.2, ih.2⟩⟩

/-! ### Lists -/

section List

variable {π : Type} {words : π → List Token} {separator : Kind}

/-- A separator with the item after it. -/
def separated (words : π → List Token) (x : Token × π) : List Token := x.1 :: words x.2

/-- What may stand after the last item of a list. -/
def IsTail (separator : Kind) (w : List Token) : Prop :=
  w = [] ∨ ∃ t : Token, t.kind = separator ∧ w = [t]

/-- A list has a first item, further items after separators, and a tail. -/
lemma Listed.exists_items {ps : List π} (h : Listed separator (ps.map words) u) :
    ∃ (p : π) (xs : List (Token × π)) (tail : List Token), ps = p :: xs.map Prod.snd ∧
      (∀ x ∈ xs, x.1.kind = separator) ∧ IsTail separator tail ∧
      u = words p ++ xs.flatMap (separated words) ++ tail := by
  generalize hws : ps.map words = ws at h
  induction h generalizing ps with
  | last w =>
      obtain ⟨p, rfl, rfl⟩ : ∃ p, ps = [p] ∧ words p = w := by simpa using hws
      exact ⟨p, [], [], rfl, by simp, Or.inl rfl, by simp⟩
  | @trailing w t ht =>
      obtain ⟨p, rfl, rfl⟩ : ∃ p, ps = [p] ∧ words p = w := by simpa using hws
      exact ⟨p, [], [t], rfl, by simp, Or.inr ⟨t, ht, rfl⟩, by simp⟩
  | @more w t ht ws u _ ih =>
      obtain ⟨p, ps, rfl, rfl, hps⟩ := List.map_eq_cons_iff.mp hws
      obtain ⟨q, xs, tail, rfl, hxs, htail, rfl⟩ := ih hps
      exact ⟨p, (t, q) :: xs, tail, rfl, List.forall_mem_cons.mpr ⟨ht, hxs⟩, htail,
        by simp [separated]⟩

lemma listed_items {p : π} {xs : List (Token × π)} {tail : List Token}
    (hxs : ∀ x ∈ xs, x.1.kind = separator) (htail : IsTail separator tail) :
    Listed separator ((p :: xs.map Prod.snd).map words)
      (words p ++ xs.flatMap (separated words) ++ tail) := by
  induction xs generalizing p with
  | nil =>
      rcases htail with rfl | ⟨t, ht, rfl⟩
      · simpa using Listed.last (words p)
      · simpa using Listed.trailing (words p) ht
  | cons x xs ih =>
      obtain ⟨hx, hxs⟩ := List.forall_mem_cons.mp hxs
      simpa [separated] using Listed.more (words p) hx (ih (p := x.2) hxs)

end List

end Grammar

end ArrayExpr
