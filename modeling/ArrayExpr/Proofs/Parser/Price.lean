/-
The price of a tree.

* `Grammar.Level.rules`: the rules visited on the way from a level down to an operand;
* `Node.charge`: what a form of tree adds to the prices of its children;
* `Expr.price`: what is paid for a tree below the rules of its level; `price_call` and
  those after it read it off the way in which the parser builds trees;
* `probes`: what is paid for the items of lists that are missing, each between two
  neighbours of the tokens; `probes_append`, `probes_between`: the probes of two words in a
  row.
-/
import ArrayExpr.Proofs.Grammar.Pairs
import ArrayExpr.Proofs.Parser.Linear

namespace ArrayExpr

open Grammar

/-! ### Charges -/

/-- The rules visited on the way from a level down to an operand. -/
def Grammar.Level.rules : Level → Multiset String
  | .operand => {"primary_expr"}
  | .suffixed => {"postfix_expr", "primary_expr"}
  | .signed => {"unary_expr", "postfix_expr", "primary_expr"}
  | .product => {"product_expr", "unary_expr", "postfix_expr", "primary_expr"}
  | .sum => {"sum_expr", "product_expr", "unary_expr", "postfix_expr", "primary_expr"}
  | .comparison =>
    {"cmp_expr", "sum_expr", "product_expr", "unary_expr", "postfix_expr", "primary_expr"}
  | .assignment =>
    {"assign_expr", "cmp_expr", "sum_expr", "product_expr", "unary_expr", "postfix_expr",
      "primary_expr"}

/-- The level of the right operand of an operator. -/
def ArithOp.operandLevel : ArithOp → Level
  | plus | minus => .product
  | times | divide => .signed

/-- What a form of tree adds to the prices of its children. -/
def Node.charge : Node Literal Expr → Multiset String
  | .array rows =>
    {"array_literal", "array_rows"} + rows.length • {"array_row", "row_items"} +
      rows.flatten.length • Level.rules .assignment
  | .group _ => Level.rules .assignment
  | .call _ args => {"call_suffix", "call_args"} + args.length • Level.rules .assignment
  | .index args => {"index_suffix", "subscripts"} + args.length • Level.rules .assignment
  | .arith _ op _ => op.operandLevel.rules
  | .comparison _ links => links.length • Level.rules .sum
  | .assign _ _ => Level.rules .comparison
  | .literal _ | .name _ | .field _ | .access _ _ | .negate _ => 0

namespace Expr

variable {e left right : Expr} {span : Span} {args : List Expr}

/-- What is paid for a tree below the rules of its level. -/
def price (e : Expr) : Multiset String := (e.preorder.map fun n => n.node.charge).sum

lemma sum_charge_flatMap (cs : List Expr) :
    ((cs.flatMap Tree.preorder).map fun n => n.node.charge).sum = (cs.map price).sum := by
  induction cs with
  | nil => rfl
  | cons c cs ih =>
      rw [List.flatMap_cons, List.map_append, List.sum_append, ih]
      rfl

/-- A tree costs its own charge and what its children cost. -/
lemma price_eq (e : Expr) : e.price = e.node.charge + (e.children.map price).sum := by
  rw [price, Tree.preorder_eq, List.map_cons, List.sum_cons, sum_charge_flatMap]

/-- What is paid for an expression inside brackets. -/
def entry (e : Expr) : Multiset String := Level.rules .assignment + e.price

/-- Trees that are entered pay the rules each. -/
lemma sum_entry (args : List Expr) :
    (args.map entry).sum = args.length • Level.rules .assignment + (args.map price).sum := by
  have h : args.map entry = args.map fun e => Level.rules .assignment + e.price := rfl
  rw [h, List.sum_map_add, List.map_const', List.sum_replicate]

lemma price_group : price ⟨.group e, span⟩ = e.entry := by
  rw [price_eq, entry]
  simp [Node.charge, Tree.children, Node.children]

lemma price_array (rows : List (List Expr)) : price ⟨.array rows, span⟩ =
    {"array_literal", "array_rows"} +
      (rows.map fun row => {"array_row", "row_items"} + (row.map entry).sum).sum := by
  have hrows : (rows.map fun row => {"array_row", "row_items"} + (row.map entry).sum).sum =
      rows.length • {"array_row", "row_items"} + (rows.flatten.map entry).sum := by
    rw [List.sum_map_add, List.map_const', List.sum_replicate, List.map_flatten,
      List.sum_flatten, List.map_map]
    rfl
  rw [price_eq, hrows, sum_entry]
  simp only [Node.charge, Tree.children, Node.children]
  abel

lemma price_call : price ⟨.call e args, span⟩ =
    e.price + ({"call_suffix", "call_args"} + (args.map entry).sum) := by
  rw [price_eq, sum_entry]
  simp only [Node.charge, Tree.children, Node.children, List.map_cons, List.sum_cons]
  abel

lemma price_index : price ⟨.index args, span⟩ =
    {"index_suffix", "subscripts"} + (args.map entry).sum := by
  rw [price_eq, sum_entry]
  simp only [Node.charge, Tree.children, Node.children]
  abel

lemma price_negateFrom (sign : Span) : (negateFrom sign e).price = e.price := by
  rw [price_eq]
  simp [negateFrom, Node.charge, Tree.children, Node.children]

lemma price_signs (signs : List Span) : (signs.foldr negateFrom e).price = e.price := by
  induction signs with
  | nil => rfl
  | cons sign signs ih => rw [List.foldr_cons, price_negateFrom, ih]

/-- Each operator of a chain is paid for with its operand. -/
lemma price_chain {l : Level} (links : List (ArithOp × Expr))
    (hl : ∀ x ∈ links, x.1.operandLevel = l) : (links.foldl arithWith e).price =
      e.price + (links.map fun x => l.rules + x.2.price).sum := by
  induction links generalizing e with
  | nil => simp
  | cons x links ih =>
      obtain ⟨hx, hlinks⟩ := List.forall_mem_cons.mp hl
      have harith : (arithWith e x).price = e.price + (l.rules + x.2.price) := by
        rw [price_eq]
        simp only [arithWith, Node.charge, Tree.children, Node.children, List.map_cons,
          List.map_nil, List.sum_cons, List.sum_nil, hx]
        abel
      rw [List.foldl_cons, ih hlinks, harith, List.map_cons, List.sum_cons, add_assoc]

lemma price_compareWith (links : List (CompareOp × Expr)) : (compareWith e links).price =
    e.price + (links.map fun x => Level.rules .sum + x.2.price).sum := by
  cases hlast : links.getLast? with
  | none =>
      obtain rfl := List.getLast?_eq_none_iff.mp hlast
      simp [compareWith]
  | some last =>
      rw [price_eq]
      simp only [compareWith, hlast, Node.charge, Tree.children, Node.children, List.map_cons,
        List.sum_cons, List.map_map, List.sum_map_add, List.map_const', List.sum_replicate]
      rw [← add_assoc, add_comm (_ • _), add_assoc]
      rfl

lemma price_assignAll (others : List Expr) : (assignAll e others).price =
    e.price + (others.map fun next => Level.rules .comparison + next.price).sum := by
  induction others generalizing e with
  | nil => simp [assignAll]
  | cons next others ih =>
      rw [assignAll, price_eq]
      simp only [assignTo, Node.charge, Tree.children, Node.children, List.map_cons, List.map_nil,
        List.sum_cons, List.sum_nil, ih]
      abel

end Expr

/-- What is paid for a suffix. -/
def Suffix.price : Suffix → Multiset String
  | call args _ => {"call_suffix", "call_args"} + (args.map Expr.entry).sum
  | step s => Expr.price s

namespace Suffix

lemma price_access (base : Expr) (steps : List Expr) :
    Expr.price (access base steps) = base.price + (steps.map Expr.price).sum := by
  cases steps with
  | nil => simp [access]
  | cons last before =>
      rw [access, Expr.price_eq]
      simp only [Node.charge, Tree.children, Node.children, zero_add, List.map_cons,
        List.sum_cons, List.map_reverse, List.sum_reverse, List.reverse_cons, List.map_append,
        List.sum_append, List.map_nil, List.sum_nil]
      abel

/-- An operand with suffixes costs what they cost one by one. -/
lemma price_attach (base : Expr) (steps : List Expr) (suffixes : List Suffix) :
    Expr.price (attach base steps suffixes) =
      base.price + (steps.map Expr.price).sum + (suffixes.map price).sum := by
  induction suffixes generalizing base steps with
  | nil => simp [attach, price_access]
  | cons x suffixes ih =>
      cases x with
      | call args span =>
          rw [attach, ih, Expr.price_call, price_access]
          simp only [price, List.map_cons, List.sum_cons, List.map_nil, List.sum_nil]
          abel
      | step s =>
          rw [attach, ih]
          simp only [price, List.map_cons, List.sum_cons]
          abel

end Suffix

/-! ### Items that are missing -/

/-- In front of a token that ends a list no item begins. -/
lemma Kind.not_startsOperand {kind : Kind} (h : kind.endsItems = true) :
    kind.startsOperand = false := by
  cases kind <;> simp_all [startsOperand, endsItems]

/-- An item was tried between two neighbours in vain. -/
def missed (p : Token × Token) : Bool := p.1.kind.beforeItem && p.2.kind.endsItems

/-- A row was tried between two neighbours in vain. -/
def missedRow (p : Token × Token) : Bool :=
  (p.1.kind = .openBracket || p.1.kind = .semicolon) && p.2.kind = .closeBracket

/-- What is paid for an item that is missing between two neighbours, if one was tried. -/
def probe (p : Token × Token) : Multiset String :=
  (if missed p then (Parser.expressionRules : Multiset String) else 0) +
    if missedRow p then {"array_row", "row_items"} else 0

/-- What is paid for the missing items of a word. -/
def probes (w : List Token) : Multiset String := ((pairs w).map probe).sum

section Probes

variable {v w : List Token} {t c : Token}

lemma probe_of_leads {p : Token × Token} (h : p.2.kind.endsItems = false) : probe p = 0 := by
  have hrow : missedRow p = false := by
    rw [missedRow, Bool.and_eq_false_iff]
    right
    cases hk : p.2.kind <;> simp_all [Kind.endsItems]
  simp [probe, missed, h, hrow]

lemma probe_of_leaves {p : Token × Token} (h : p.1.kind.beforeItem = false) : probe p = 0 := by
  have hrow : missedRow p = false := by
    rw [missedRow, Bool.and_eq_false_iff]
    left
    cases hk : p.1.kind <;> simp_all [Kind.beforeItem]
  simp [probe, missed, h, hrow]

@[simp] lemma probes_singleton (t : Token) : probes [t] = 0 := rfl

lemma probes_pair (t c : Token) : probes [t, c] = probe (t, c) := by
  simp [probes]

/-- A token between two words belongs to both. -/
lemma probes_between (v w : List Token) (c : Token) :
    probes (v ++ c :: w) = probes (v ++ [c]) + probes (c :: w) := by
  simp only [probes, pairs_append v, pairs_singleton, List.append_nil, List.map_append,
    List.sum_append, List.head?_cons]
  abel

/-- Nothing is paid between a word and one that leads. -/
lemma probes_append (h : w = [] ∨ Leads w) : probes (v ++ w) = probes v + probes w := by
  rcases h with rfl | ⟨t, u, rfl, ht⟩
  · simp [probes]
  · rcases List.eq_nil_or_concat' v with rfl | ⟨v, a, rfl⟩
    · simp [probes]
    · rw [probes_between, List.append_assoc, List.singleton_append, probes_between, probes_pair,
        probe_of_leads ht, add_zero]

lemma probes_cons (h : Leads w) : probes (t :: w) = probes w := by
  rw [← List.singleton_append, probes_append (.inr h), probes_singleton, zero_add]

/-- Nothing is paid behind a word that leaves. -/
lemma probes_concat (h : Leaves v) : probes (v ++ [t]) = probes v := by
  obtain ⟨u, a, rfl, ha⟩ := h
  rw [List.append_assoc, List.singleton_append, probes_between, probes_pair,
    probe_of_leaves (Kind.beforeItem_of_endsOperand ha), add_zero]

end Probes

end ArrayExpr
