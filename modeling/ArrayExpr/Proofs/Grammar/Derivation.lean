/-
The grammar of expressions as derivations.

* `Grammar.Level`: the nonterminals that stand for expressions, from the
  loosest to the tightest;
* `Grammar.Phrase`: tokens with the tree they are read as;
* `Grammar.Listed`: words with separators between them, and maybe one more at
  the end;
* `Grammar.Derives`: tokens derive from a nonterminal, with the tree of that
  derivation. There is one constructor for each alternative of

      assignment := comparison | comparison '=' assignment
      comparison := sum (compare sum)*
      sum        := product | sum ('+' | '-') product
      product    := signed | product ('*' | '/') signed
      signed     := suffixed | '-' signed
      suffixed   := operand | suffixed call | suffixed index | suffixed field
      operand    := literal | name | '(' assignment ')' | array
      array      := '[' (row (';' row)* ';'?)? ']'
      row        := assignment (',' assignment)* ','?
      call       := '(' (assignment (',' assignment)* ','?)? ')'
      index      := '[' assignment (',' assignment)* ','? ']'
      field      := '.' name

  The repetitions of sums, products and suffixes are written from the left,
  which is how their trees grow.

Every node carries the extent of its tokens.
-/
import ArrayExpr.Expr.Basic
import Mathlib.Tactic

namespace ArrayExpr

/-- The stretch of the source from the first of some tokens to the last. -/
def extent (w : List Token) : Span :=
  ⟨(w.head?.map (·.start.offset)).getD 0, (w.getLast?.map (·.stop)).getD 0⟩

/-- The operator of a sum. -/
def Kind.isSumOp (kind : Kind) (op : ArithOp) : Prop :=
  kind = .arith op ∧ (op = .plus ∨ op = .minus)

/-- The operator of a product. -/
def Kind.isProductOp (kind : Kind) (op : ArithOp) : Prop :=
  kind = .arith op ∧ (op = .times ∨ op = .divide)

/-- The operator of a comparison. -/
def Kind.isCompareOp (kind : Kind) (op : CompareOp) : Prop := kind = .compare op

namespace Grammar

/-- The nonterminals that stand for expressions. -/
inductive Level where
  | assignment | comparison | sum | product | signed | suffixed | operand
deriving DecidableEq, Repr

/-- Tokens with the tree they are read as. -/
structure Phrase where
  tokens : List Token
  tree : Expr

/-- A further operand with the operator before it. -/
structure Link (ω : Type) where
  token : Token
  op : ω
  right : Phrase

/-- The tokens of a link. -/
def Link.tokens {ω : Type} (l : Link ω) : List Token := l.token :: l.right.tokens

/-- An operator with the tree of its right side. -/
def Link.side {ω : Type} (l : Link ω) : ω × Expr := (l.op, l.right.tree)

/-- A row of an array: its tokens and its elements. -/
structure Row where
  tokens : List Token
  items : List Phrase

/-- The trees of the elements of a row. -/
def Row.trees (r : Row) : List Expr := r.items.map Phrase.tree

/-- One word or several with separators between them, and maybe one separator
more after the last. -/
inductive Listed (separator : Kind) : List (List Token) → List Token → Prop
  | last (w : List Token) : Listed separator [w] w
  | trailing (w : List Token) {t : Token} (ht : t.kind = separator) :
      Listed separator [w] (w ++ [t])
  | more (w : List Token) {t : Token} (ht : t.kind = separator) {ws : List (List Token)}
      {u : List Token} (h : Listed separator ws u) : Listed separator (w :: ws) (w ++ t :: u)

/-- A list that may also have no words. -/
def ListedOrNone (separator : Kind) (ws : List (List Token)) (u : List Token) : Prop :=
  ws = [] ∧ u = [] ∨ Listed separator ws u

/-- A node over the tokens it is written with. -/
def node (w : List Token) (n : Node Literal Expr) : Expr := ⟨n, extent w⟩

/-- An operand with one step more after it, over the tokens `w`: steps in a row
stand in one access. -/
def withStep (w : List Token) (base step : Expr) : Expr :=
  match base.node with
  | .access inner steps => node w (.access inner (steps ++ [step]))
  | _ => node w (.access base [step])

/-- **Derivations.** The tokens `w` derive from a nonterminal, and the tree is
the one of the derivation. -/
inductive Derives : Level → List Token → Expr → Prop
  | value {w : List Token} {e : Expr} (h : Derives .comparison w e) : Derives .assignment w e
  | assign {v w : List Token} {t : Token} {target value : Expr}
      (hv : Derives .comparison v target) (ht : t.kind = .assign)
      (hw : Derives .assignment w value) :
      Derives .assignment (v ++ t :: w) (node (v ++ t :: w) (.assign target value))
  | comparand {w : List Token} {e : Expr} (h : Derives .sum w e) : Derives .comparison w e
  | compare {w : List Token} {first : Expr} {links : List (Link CompareOp)}
      (hw : Derives .sum w first) (hne : links ≠ [])
      (hop : ∀ l ∈ links, l.token.kind.isCompareOp l.op)
      (hl : ∀ l ∈ links, Derives .sum l.right.tokens l.right.tree) :
      Derives .comparison (w ++ links.flatMap Link.tokens)
        (node (w ++ links.flatMap Link.tokens)
          (.comparison first (links.map Link.side)))
  | term {w : List Token} {e : Expr} (h : Derives .product w e) : Derives .sum w e
  | add {v w : List Token} {t : Token} {op : ArithOp} {left right : Expr}
      (hv : Derives .sum v left) (ht : t.kind.isSumOp op) (hw : Derives .product w right) :
      Derives .sum (v ++ t :: w) (node (v ++ t :: w) (.arith left op right))
  | factor {w : List Token} {e : Expr} (h : Derives .signed w e) : Derives .product w e
  | multiply {v w : List Token} {t : Token} {op : ArithOp} {left right : Expr}
      (hv : Derives .product v left) (ht : t.kind.isProductOp op) (hw : Derives .signed w right) :
      Derives .product (v ++ t :: w) (node (v ++ t :: w) (.arith left op right))
  | unsigned {w : List Token} {e : Expr} (h : Derives .suffixed w e) : Derives .signed w e
  | negate {t : Token} {w : List Token} {e : Expr}
      (ht : t.kind = .arith .minus) (hw : Derives .signed w e) :
      Derives .signed (t :: w) (node (t :: w) (.negate e))
  | bare {w : List Token} {e : Expr} (h : Derives .operand w e) : Derives .suffixed w e
  | call {v u : List Token} {o c : Token} {callee : Expr} {args : List Phrase}
      (hv : Derives .suffixed v callee) (ho : o.kind = .openParen) (hc : c.kind = .closeParen)
      (hu : ListedOrNone .comma (args.map Phrase.tokens) u)
      (ha : ∀ a ∈ args, Derives .assignment a.tokens a.tree) :
      Derives .suffixed (v ++ (o :: u ++ [c]))
        (node (v ++ (o :: u ++ [c])) (.call callee (args.map Phrase.tree)))
  | index {v u : List Token} {o c : Token} {base : Expr} {args : List Phrase}
      (hv : Derives .suffixed v base) (ho : o.kind = .openBracket) (hc : c.kind = .closeBracket)
      (hu : Listed .comma (args.map Phrase.tokens) u)
      (ha : ∀ a ∈ args, Derives .assignment a.tokens a.tree) :
      Derives .suffixed (v ++ (o :: u ++ [c]))
        (withStep (v ++ (o :: u ++ [c])) base
          (node (o :: u ++ [c]) (.index (args.map Phrase.tree))))
  | field {v : List Token} {d t : Token} {base : Expr}
      (hv : Derives .suffixed v base) (hd : d.kind = .dot) (ht : t.kind = .name) :
      Derives .suffixed (v ++ [d, t])
        (withStep (v ++ [d, t]) base (node [d, t] (.field (t.text.getD ""))))
  | literal {t : Token} {kind : LiteralKind} (ht : t.kind = .literal kind) :
      Derives .operand [t] (node [t] (.literal ⟨kind, t.text.getD ""⟩))
  | name {t : Token} (ht : t.kind = .name) :
      Derives .operand [t] (node [t] (.name (t.text.getD "")))
  | group {u : List Token} {o c : Token} {inner : Expr}
      (ho : o.kind = .openParen) (hc : c.kind = .closeParen) (hu : Derives .assignment u inner) :
      Derives .operand (o :: u ++ [c]) (node (o :: u ++ [c]) (.group inner))
  | array {u : List Token} {o c : Token} {rows : List Row}
      (ho : o.kind = .openBracket) (hc : c.kind = .closeBracket)
      (hu : ListedOrNone .semicolon (rows.map Row.tokens) u)
      (hr : ∀ r ∈ rows, Listed .comma (r.items.map Phrase.tokens) r.tokens)
      (ha : ∀ r ∈ rows, ∀ a ∈ r.items, Derives .assignment a.tokens a.tree) :
      Derives .operand (o :: u ++ [c])
        (node (o :: u ++ [c]) (.array (rows.map Row.trees)))

end Grammar

end ArrayExpr
