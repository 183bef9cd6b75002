/-
The visits of an accepted parse, counted rule by rule.

* `Expr.nodes`, `Expr.tally`: the nodes of a form, and what nodes hold, in a whole tree;
* `missedItems`, `missedRows`: the neighbours between which an item or a row was tried in
  vain, as the tree has their brackets;
* `CostLaw`: what each rule was visited for;
* `parse_cost`: **the visits of an accepted parse obey the law**.
-/
import ArrayExpr.Proofs.Parser.Acceptance
import ArrayExpr.Proofs.Parser.Bills
import ArrayExpr.Proofs.Rule.Counting
import ArrayExpr.Proofs.Scanner.Covering

namespace ArrayExpr

open Grammar

/-! ### What a tree holds -/

namespace Node

variable {ν χ : Type}

/-- The node is a call. -/
def isCall : Node ν χ → Bool
  | call _ _ => true
  | _ => false

/-- The node holds subscripts. -/
def isIndex : Node ν χ → Bool
  | index _ => true
  | _ => false

/-- The node is an array. -/
def isArray : Node ν χ → Bool
  | array _ => true
  | _ => false

/-- The node is an expression in parentheses. -/
def isGroup : Node ν χ → Bool
  | group _ => true
  | _ => false

/-- The node is an assignment. -/
def isAssign : Node ν χ → Bool
  | assign _ _ => true
  | _ => false

/-- The node is a sum or a difference. -/
def isSum : Node ν χ → Bool
  | arith _ op _ => op = .plus || op = .minus
  | _ => false

/-- The node is a product or a quotient. -/
def isProduct : Node ν χ → Bool
  | arith _ op _ => op = .times || op = .divide
  | _ => false

/-- How many rows an array has. -/
def rowCount : Node ν χ → ℕ
  | array rows => rows.length
  | _ => 0

/-- How many expressions stand in a list: arguments, subscripts, or elements of rows. -/
def itemCount : Node ν χ → ℕ
  | array rows => rows.flatten.length
  | call _ args | index args => args.length
  | _ => 0

/-- How many links a comparison has. -/
def linkCount : Node ν χ → ℕ
  | comparison _ links => links.length
  | _ => 0

end Node

namespace Expr

/-- How many nodes of a tree are of a form. -/
def nodes (tree : Expr) (form : Node Literal Expr → Bool) : ℕ :=
  tree.preorder.countP fun n => form n.node

/-- What the nodes of a tree hold together. -/
def tally (tree : Expr) (held : Node Literal Expr → ℕ) : ℕ :=
  (tree.preorder.map fun n => held n.node).sum

lemma tally_add (tree : Expr) (f g : Node Literal Expr → ℕ) :
    (tree.tally fun n => f n + g n) = tree.tally f + tree.tally g :=
  List.sum_map_add

lemma tally_mul (tree : Expr) (f : Node Literal Expr → ℕ) (k : ℕ) :
    (tree.tally fun n => f n * k) = tree.tally f * k :=
  List.sum_map_mul_right ..

lemma tally_toNat (tree : Expr) (form : Node Literal Expr → Bool) :
    (tree.tally fun n => (form n).toNat) = tree.nodes form := by
  rw [tally, nodes]
  induction tree.preorder with
  | nil => rfl
  | cons n ns ih =>
      rw [List.map_cons, List.sum_cons, ih, List.countP_cons, add_comm]
      cases form n.node <;> rfl

/-- How often a rule stands in the price of a tree. -/
lemma count_price (tree : Expr) (rule : String) :
    tree.price.count rule = tree.tally fun n => n.charge.count rule := by
  rw [price, tally]
  induction tree.preorder with
  | nil => rfl
  | cons n ns ih => rw [List.map_cons, List.sum_cons, Multiset.count_add, ih]; rfl

end Expr

/-! ### What was tried in vain -/

/-- How many neighbours there are of which the second is `)`, `]` or `;` and the first is
`,`, `;` or the bracket that opens a call or an array of the tree. -/
def missedItems (tree : Expr) (read : List Token) : ℕ :=
  (pairs read).countP fun p =>
    (p.2.kind = .closeParen || p.2.kind = .closeBracket || p.2.kind = .semicolon) &&
      (p.1.kind = .comma || p.1.kind = .semicolon || tree.opens p.1)

/-- How many neighbours there are of which the second is `]` and the first is `;` or the
bracket that opens an array of the tree. -/
def missedRows (tree : Expr) (read : List Token) : ℕ :=
  (pairs read).countP fun p =>
    p.2.kind = .closeBracket &&
      (p.1.kind = .semicolon || (p.1.kind = .openBracket && tree.opens p.1))

lemma count_probes (w : List Token) (rule : String) :
    (probes w).count rule =
      (pairs w).countP missed * (Parser.expressionRules : Multiset String).count rule +
        (pairs w).countP missedRow * ({"array_row", "row_items"} : Multiset String).count rule := by
  rw [probes]
  induction pairs w with
  | nil => simp
  | cons p ps ih =>
      rw [List.map_cons, List.sum_cons, Multiset.count_add, ih, List.countP_cons,
        List.countP_cons, probe, Multiset.count_add]
      cases missed p <;> cases missedRow p <;> simp [Nat.add_mul] <;> omega

/-- What opens is an opening bracket. -/
lemma kind_of_opens {tree : Expr} {t : Token} (h : tree.opens t = true) :
    t.kind = .openParen ∨ t.kind = .openBracket := by
  obtain ⟨n, -, hn⟩ := List.any_eq_true.mp h
  rw [Bool.and_eq_true] at hn
  rcases n with ⟨m, span⟩
  cases m with
  | call callee args => exact .inl (of_decide_eq_true hn.2)
  | array rows => exact .inr (of_decide_eq_true hn.2)
  | _ => cases hn.2

section Missed

variable {l : Level} {w : List Token} {tree : Expr} (hd : Derives l w tree) (hs : Spread w)

include hd hs

lemma countP_missed : (pairs w).countP missed = missedItems tree w := by
  refine List.countP_congr fun p hp => ?_
  have hopens := hd.atOnce hs p hp
  have hkind : tree.opens p.1 = true → _ := kind_of_opens
  rw [missed, Bool.and_comm]
  cases hk : p.2.kind <;> simp [Kind.endsItems] <;>
    cases hk' : p.1.kind <;> simp_all [Kind.beforeItem, Kind.isOpening, Kind.endsItems]

lemma countP_missedRow : (pairs w).countP missedRow = missedRows tree w := by
  refine List.countP_congr fun p hp => ?_
  have hopens := hd.atOnce hs p hp
  rw [missedRow, Bool.and_comm]
  cases hk : p.2.kind <;>
    cases hk' : p.1.kind <;> simp_all [Kind.isOpening, Kind.endsItems]

end Missed

/-! ### Counts -/

/-- How often a rule stands in a charge, for all rules at once. -/
lemma count_charge (n : Node Literal Expr) (rule : String) :
    n.charge.count rule =
      n.isArray.toNat * ({"array_literal", "array_rows"} : Multiset String).count rule +
      n.rowCount * ({"array_row", "row_items"} : Multiset String).count rule +
      n.isCall.toNat * ({"call_suffix", "call_args"} : Multiset String).count rule +
      n.isIndex.toNat * ({"index_suffix", "subscripts"} : Multiset String).count rule +
      (n.isGroup.toNat + n.itemCount) * (Level.rules .assignment).count rule +
      n.isAssign.toNat * (Level.rules .comparison).count rule +
      n.linkCount * (Level.rules .sum).count rule +
      n.isSum.toNat * (Level.rules .product).count rule +
      n.isProduct.toNat * (Level.rules .signed).count rule := by
  cases n with
  | arith left op right =>
      cases op <;> simp [Node.charge, Node.isArray, Node.rowCount, Node.isCall, Node.isIndex,
        Node.isGroup, Node.itemCount, Node.isAssign, Node.linkCount, Node.isSum, Node.isProduct,
        ArithOp.operandLevel]
  | _ =>
      simp only [Node.charge, Node.isArray, Node.rowCount, Node.isCall, Node.isIndex,
        Node.isGroup, Node.itemCount, Node.isAssign, Node.linkCount, Node.isSum, Node.isProduct,
        Multiset.count_add, Multiset.count_nsmul, Multiset.count_zero, Bool.toNat_true,
        Bool.toNat_false]
      ring

/-- How often a rule stands in what a derivation is billed, from what its tree holds and what
was missed between its tokens. -/
lemma count_billed {l : Level} {w : List Token} {tree : Expr} (hd : Derives l w tree)
    (hs : Spread w) (rule : String) :
    (Level.rules .assignment + tree.price + probes w).count rule =
      tree.nodes Node.isArray * ({"array_literal", "array_rows"} : Multiset String).count rule +
      tree.tally Node.rowCount * ({"array_row", "row_items"} : Multiset String).count rule +
      tree.nodes Node.isCall * ({"call_suffix", "call_args"} : Multiset String).count rule +
      tree.nodes Node.isIndex * ({"index_suffix", "subscripts"} : Multiset String).count rule +
      (1 + tree.nodes Node.isGroup + tree.tally Node.itemCount) *
        (Level.rules .assignment).count rule +
      tree.nodes Node.isAssign * (Level.rules .comparison).count rule +
      tree.tally Node.linkCount * (Level.rules .sum).count rule +
      tree.nodes Node.isSum * (Level.rules .product).count rule +
      tree.nodes Node.isProduct * (Level.rules .signed).count rule +
      (missedItems tree w * (Parser.expressionRules : Multiset String).count rule +
        missedRows tree w * ({"array_row", "row_items"} : Multiset String).count rule) := by
  rw [Multiset.count_add, Multiset.count_add, Expr.count_price, count_probes, countP_missed hd hs,
    countP_missedRow hd hs]
  simp only [count_charge, Expr.tally_add, Expr.tally_mul, Expr.tally_toNat]
  ring

/-! ### The law -/

/-- **What each rule is visited for** when the tokens `read` are read as a tree: for the
nodes that begin with it, for the operands of its level, and for the items of lists that
are missing. -/
structure CostLaw (tree : Expr) (read : List Token) (stats : Stats) : Prop where
  call_suffix : stats.count "call_suffix" = tree.nodes Node.isCall
  call_args : stats.count "call_args" = tree.nodes Node.isCall
  index_suffix : stats.count "index_suffix" = tree.nodes Node.isIndex
  subscripts : stats.count "subscripts" = tree.nodes Node.isIndex
  array_rows : stats.count "array_rows" = tree.nodes Node.isArray
  array_row : stats.count "array_row" = tree.tally Node.rowCount + missedRows tree read
  row_items : stats.count "row_items" = tree.tally Node.rowCount + missedRows tree read
  assign_expr : stats.count "assign_expr" =
    1 + tree.nodes Node.isGroup + tree.tally Node.itemCount + missedItems tree read
  cmp_expr : stats.count "cmp_expr" = stats.count "assign_expr" + tree.nodes Node.isAssign
  sum_expr : stats.count "sum_expr" = stats.count "cmp_expr" + tree.tally Node.linkCount
  product_expr : stats.count "product_expr" = stats.count "sum_expr" + tree.nodes Node.isSum
  unary_expr : stats.count "unary_expr" = stats.count "product_expr" + tree.nodes Node.isProduct
  postfix_expr : stats.count "postfix_expr" =
    stats.count "product_expr" + tree.nodes Node.isProduct
  primary_expr : stats.count "primary_expr" =
    stats.count "product_expr" + tree.nodes Node.isProduct
  array_literal : stats.count "array_literal" = tree.nodes Node.isArray + missedItems tree read

/-- What is billed obeys the law. -/
lemma costLaw_of_bill {l : Level} {w : List Token} {tree : Expr} {visits : List Visit}
    (hd : Derives l w tree) (hs : Spread w)
    (hbill : Rule.bill visits = Level.rules .assignment + tree.price + probes w) :
    CostLaw tree w (Stats.empty.add visits) := by
  have hcount : ∀ rule, (Stats.empty.add visits).count rule =
      (Level.rules .assignment + tree.price + probes w).count rule := fun rule => by
    rw [← hbill, Rule.count_bill, Stats.count_add, Stats.count_empty, Nat.zero_add]
  constructor
  all_goals simp only [hcount, count_billed hd hs]
  all_goals simp [Level.rules, Parser.expressionRules]
  all_goals omega

/-- **The cost of an accepted parse** is determined by its tree and by the neighbours among
the tokens that it consumes: no rule is visited for anything else. -/
theorem parse_cost {source : String} {limit : ℤ} {parsed : Parsed}
    (h : (parse limit source).verdict = .accepted parsed) :
    ∃ tokens rest, tokenize source = .ok tokens ∧
      (parseTokens limit source).verdict = .accepted (parsed.tree, rest) ∧
      CostLaw parsed.tree (tokens.items.take rest.index)
        (Stats.empty.add (parse limit source).visits) := by
  obtain ⟨tokens, rest, w, ht, hverdict, hp, hw, -⟩ := parse_accepted h
  obtain ⟨-, rfl⟩ := TokenStream.take_of_passes_ofTokens hp
  refine ⟨tokens, rest, ht, hverdict, ?_⟩
  have hgives := (parseTokens_accepted_iff ht limit parsed.tree rest).mp hverdict
  have hvisits : (parse limit source).visits = (Parser.root limit (.ofTokens tokens)).visits := by
    change (parseTokens limit source).visits = _
    rw [parseTokens, ht]
    exact Report.ofRun_visits _ _
  refine costLaw_of_bill hw.1 ((tokenize_spread ht).sublist (List.take_sublist _ _)) ?_
  rw [hvisits]
  exact (Parser.bills_expr limit limit.toNat).bill (tokenize_ordered ht) hgives.pays hp

/-- The theorem at the source `[[],;]`, where three expressions and two rows are missing. -/
theorem parse_cost_missing : ∃ parsed, (parse 2 "[[],;]").verdict = .accepted parsed ∧
    ∃ tokens rest, tokenize "[[],;]" = .ok tokens ∧
      (parseTokens 2 "[[],;]").verdict = .accepted (parsed.tree, rest) ∧
      CostLaw parsed.tree (tokens.items.take rest.index)
        (Stats.empty.add (parse 2 "[[],;]").visits) := by
  have ht : tokenize "[[],;]" = .ok ⟨[⟨.openBracket, some "[", ⟨0, 1, 1⟩, 1⟩,
      ⟨.openBracket, some "[", ⟨1, 1, 2⟩, 2⟩, ⟨.closeBracket, some "]", ⟨2, 1, 3⟩, 3⟩,
      ⟨.comma, some ",", ⟨3, 1, 4⟩, 4⟩, ⟨.semicolon, some ";", ⟨4, 1, 5⟩, 5⟩,
      ⟨.closeBracket, some "]", ⟨5, 1, 6⟩, 6⟩], ⟨.finish, none, ⟨6, 1, 7⟩, 6⟩⟩ := rfl
  have h : (parse 2 "[[],;]").verdict =
      .accepted ⟨⟨.array [[⟨.array [], ⟨1, 3⟩⟩]], ⟨0, 6⟩⟩, 6⟩ := by
    rw [parse, parseTokens, ht]
    cbv
  exact ⟨_, h, parse_cost h⟩

end ArrayExpr
