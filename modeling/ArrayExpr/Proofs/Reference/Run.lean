/-
Runs of the reference machine.

* `Outline.IsTarget`: the outlines that may stand on the left of `=`, and
  `isTarget_outline_iff`: they are those of targets;
* `Outline.TargetsValid`: every `assign` of an outline has a target first;
* `Token.usual`: a token with the usual text of its kind;
* `Reference.Admits`: the machine keeps to the conditions of a parse, where
  they are strict;
* `Reference.Steps`: the machine takes tokens with their usual texts from one
  state to another and keeps to the conditions on the way;
* `run_eq_outline_iff`: the machine finds an outline exactly if it ends in a
  sentence with that outline.

A derivation tells what operators it has, but not how they are written. The
machine keeps their texts, so the two are compared on tokens with the usual
ones.
-/
import ArrayExpr.Reference.Machine
import ArrayExpr.Proofs.Expr.Shapes
import ArrayExpr.Proofs.Grammar.Condition

namespace ArrayExpr

/-! ### Targets in outlines -/

namespace Outline

/-- What may stand on the left of `=`: a name, an access, a target in
parentheses, or an array of one row of targets. -/
inductive IsTarget : Outline → Prop
  | name {text : String} : IsTarget (.leaf "IDENT" text)
  | access {parts : List Outline} : IsTarget (.branch "postfix" parts)
  | group {inner : Outline} (h : IsTarget inner) : IsTarget (.branch "group" [inner])
  | array {row : List Outline} (h : ∀ o ∈ row, IsTarget o) :
      IsTarget (.branch "array" [.branch "row" row])

/-- Among leaves only names are targets. -/
lemma isTarget_leaf_iff {label text : String} : IsTarget (.leaf label text) ↔ label = "IDENT" := by
  constructor
  · intro h
    cases h
    rfl
  · rintro rfl
    exact .name

/-- The branches that are targets. -/
lemma isTarget_branch_iff {label : String} {parts : List Outline} :
    IsTarget (.branch label parts) ↔ label = "postfix" ∨
      (label = "group" ∧ ∃ inner, parts = [inner] ∧ IsTarget inner) ∨
      (label = "array" ∧ ∃ row, parts = [.branch "row" row] ∧ ∀ o ∈ row, IsTarget o) := by
  constructor
  · intro h
    cases h with
    | access => exact Or.inl rfl
    | group h => exact Or.inr (Or.inl ⟨rfl, _, rfl, h⟩)
    | array h => exact Or.inr (Or.inr ⟨rfl, _, rfl, h⟩)
  · rintro (rfl | ⟨rfl, inner, rfl, h⟩ | ⟨rfl, row, rfl, h⟩)
    · exact .access
    · exact .group h
    · exact .array h

/-- An outline occurs in another. -/
inductive Occurs (o : Outline) : Outline → Prop
  | self : Occurs o o
  | part {label : String} {p : Outline} {parts : List Outline} (hp : p ∈ parts) (h : Occurs o p) :
      Occurs o (.branch label parts)

/-- Every `assign` in an outline has a target as its first part. -/
def TargetsValid (o : Outline) : Prop :=
  ∀ target rest, Occurs (.branch "assign" (target :: rest)) o → IsTarget target

/-- A leaf holds no assignment. -/
lemma targetsValid_leaf (label text : String) : TargetsValid (.leaf label text) := by
  intro target rest h
  cases h

/-- The targets of a branch are its own, if it is an assignment, and those of
its parts. -/
lemma targetsValid_branch_iff (label : String) (parts : List Outline) :
    TargetsValid (.branch label parts) ↔
      (∀ target rest, label = "assign" → parts = target :: rest → IsTarget target) ∧
        ∀ p ∈ parts, TargetsValid p := by
  constructor
  · intro h
    refine ⟨fun target rest hl hp => ?_, fun p hp target rest ho => h target rest (.part hp ho)⟩
    subst hl hp
    exact h target rest .self
  · rintro ⟨h1, h2⟩ target rest ho
    cases ho with
    | self => exact h1 target rest rfl rfl
    | part hp ho => exact h2 _ hp target rest ho

/-- A branch that is no assignment has the targets of its parts. -/
lemma targetsValid_branch {label : String} (hl : label ≠ "assign") (parts : List Outline) :
    TargetsValid (.branch label parts) ↔ ∀ p ∈ parts, TargetsValid p := by
  rw [targetsValid_branch_iff]
  exact and_iff_right fun _ _ h => absurd h hl

end Outline

/-- The outline of a tree in terms of its node. -/
lemma Expr.outline_eq (e : Expr) :
    e.outline = (e.node.map id outline).outline Literal.outline :=
  Tree.outline_eq Literal.outline e

/-- What may stand on the left of `=`, in terms of the node. -/
lemma isTarget_iff {ν σ : Type} (t : Tree ν σ) : IsTarget t ↔
    (∃ s, t.node = .name s) ∨ (∃ base steps, t.node = .access base steps) ∨
      (∃ inner, t.node = .group inner ∧ IsTarget inner) ∨
      ∃ row, t.node = .array [row] ∧ ∀ e ∈ row, IsTarget e := by
  constructor
  · rintro (_ | _ | h | h)
    · exact Or.inl ⟨_, rfl⟩
    · exact Or.inr (Or.inl ⟨_, _, rfl⟩)
    · exact Or.inr (Or.inr (Or.inl ⟨_, rfl, h⟩))
    · exact Or.inr (Or.inr (Or.inr ⟨_, rfl, h⟩))
  · rcases t with ⟨node, span⟩
    rintro (⟨s, rfl⟩ | ⟨base, steps, rfl⟩ | ⟨inner, rfl, h⟩ | ⟨row, rfl, h⟩)
    · exact .name
    · exact .access
    · exact .group h
    · exact .array h

/-- **The targets among outlines are the outlines of targets.** -/
lemma isTarget_outline_iff (e : Expr) : e.outline.IsTarget ↔ IsTarget e := by
  induction e using Tree.induction_children with
  | step e ih =>
      rcases e with ⟨node, span⟩
      rw [Expr.outline_eq, isTarget_iff]
      cases node with
      | literal l =>
          rcases l with ⟨_ | _ | _ | _ | _, text⟩ <;>
            simp [Node.map, Node.outline, Literal.outline, LiteralKind.label,
              Outline.isTarget_leaf_iff]
      | name s =>
          simp [Node.map, Node.outline, nameOutline, Kind.label, Outline.isTarget_leaf_iff]
      | group inner =>
          simp [Node.map, Node.outline, Outline.isTarget_branch_iff,
            ih inner (by simp [Tree.children, Node.children])]
      | array rows =>
          rcases rows with _ | ⟨row, _ | ⟨next, rows⟩⟩
          · simp [Node.map, Node.outline, Outline.isTarget_branch_iff]
          · have h : ∀ e ∈ row, ((Expr.outline e).IsTarget ↔ IsTarget e) := fun e he =>
              ih e (by simpa [Tree.children, Node.children] using he)
            simp only [Node.map, Node.outline, Outline.isTarget_branch_iff, List.map_cons,
              List.map_nil, List.cons.injEq, Outline.branch.injEq, and_true, true_and]
            simpa using forall₂_congr h
          · simp [Node.map, Node.outline, Outline.isTarget_branch_iff]
      | _ => simp [Node.map, Node.outline, Outline.isTarget_branch_iff]

lemma arithOutline_targetsValid (op : ArithOp) : op.outline.TargetsValid :=
  Outline.targetsValid_leaf _ _

lemma compareOutline_targetsValid (op : CompareOp) : op.outline.TargetsValid :=
  Outline.targetsValid_leaf _ _

/-- The targets among links are those of their operands. -/
lemma links_targetsValid_iff {links : List (CompareOp × Outline)} :
    (∀ o ∈ links.flatMap fun link => [link.1.outline, link.2], o.TargetsValid) ↔
      ∀ o ∈ links.map (·.2), o.TargetsValid := by
  constructor
  · intro h o ho
    obtain ⟨link, hl, rfl⟩ := List.mem_map.mp ho
    exact h _ (List.mem_flatMap.mpr ⟨link, hl, by simp⟩)
  · intro h o ho
    obtain ⟨link, hl, ho⟩ := List.mem_flatMap.mp ho
    simp only [List.mem_cons, List.not_mem_nil, or_false] at ho
    rcases ho with rfl | rfl
    · exact compareOutline_targetsValid _
    · exact h _ (List.mem_map_of_mem hl)

/-- The targets among rows are those of their items. -/
lemma rows_targetsValid_iff {rows : List (List Outline)} :
    (∀ o ∈ rows.map (Outline.branch "row"), o.TargetsValid) ↔
      ∀ o ∈ rows.flatten, o.TargetsValid := by
  have hrow : ∀ row, (Outline.branch "row" row).TargetsValid ↔ ∀ o ∈ row, o.TargetsValid :=
    Outline.targetsValid_branch (by simp)
  simp only [List.forall_mem_map, List.forall_mem_flatten, hrow]

/-- The targets of the outline of a node, in terms of those of its children. -/
lemma Node.targetsValid_outline_iff (n : Node Literal Outline) :
    (n.outline Literal.outline).TargetsValid ↔
      (∀ target value, n = .assign target value → target.IsTarget) ∧
        ∀ o ∈ n.children, o.TargetsValid := by
  cases n with
  | literal l => simp [Node.outline, Literal.outline, Outline.targetsValid_leaf, Node.children]
  | name s => simp [Node.outline, nameOutline, Outline.targetsValid_leaf, Node.children]
  | array rows =>
      rw [Node.outline, Outline.targetsValid_branch (by simp), rows_targetsValid_iff]
      simp [Node.children]
  | comparison first links =>
      rw [Node.outline, Outline.targetsValid_branch (by simp), List.forall_mem_cons,
        links_targetsValid_iff]
      simp [Node.children]
  | assign target value =>
      simp [Node.outline, Outline.targetsValid_branch_iff, Node.children]
  | _ =>
      simp [Node.outline, Outline.targetsValid_branch_iff, Outline.targetsValid_leaf,
        nameOutline, arithOutline_targetsValid, Node.children]

/-- **The targets of an outline are those of the tree.** -/
lemma targetsValid_outline_iff (e : Expr) : e.outline.TargetsValid ↔ TargetsValid e := by
  induction e using Tree.induction_children with
  | step e ih =>
      rw [targetsValid_iff, Expr.outline_eq, Node.targetsValid_outline_iff, Node.children_map,
        List.forall_mem_map]
      refine and_congr ?_ (forall₂_congr ih)
      rcases e with ⟨node, span⟩
      cases node with
      | assign target value => simp [Node.map, isTarget_outline_iff]
      | _ => simp [Node.map]

/-! ### Usual texts -/

/-- A token with the usual text of its kind, if the kind has one. -/
def Token.usual (t : Token) : Token := { t with text := t.kind.symbol?.or t.text }

@[simp] lemma Token.usual_kind (t : Token) : t.usual.kind = t.kind := rfl

/-- All tokens have the usual texts. -/
def Usual (w : List Token) : Prop := ∀ t ∈ w, t.usual = t

namespace Reference

/-- A literal or a name keeps its text. -/
lemma leaf_usual {t : Token} (h : t.kind.symbol? = none) : leaf t.usual = leaf t := by
  rw [leaf, leaf, Token.usual, h, Option.none_or]

/-- The leaf of an arithmetic operator with the usual text. -/
lemma leaf_usual_arith {t : Token} {op : ArithOp} (h : t.kind = .arith op) :
    leaf t.usual = op.outline := by
  simp [leaf, Token.usual, h, Kind.symbol?, Kind.label, ArithOp.outline]

/-- The leaf of a comparison operator with the usual text. -/
lemma leaf_usual_compare {t : Token} {op : CompareOp} (h : t.kind = .compare op) :
    leaf t.usual = op.outline := by
  simp [leaf, Token.usual, h, Kind.symbol?, Kind.label, CompareOp.outline]

/-- The state after a token with the usual text. -/
def stepUsual (q : State) (t : Token) : Option State := step q t.usual

/-- Where an operand is wanted no text of an operator is kept. -/
@[simp] lemma stepUsual_want (p : Pending) (br : List Bracket) (t : Token) :
    stepUsual (.want p br) t = stepWant t p br := by
  rw [stepUsual, step, stepWant, stepWant, Token.usual_kind]
  cases h : t.kind with
  | arith op => cases op <;> rfl
  | _ => simp [h, leaf_usual, Kind.symbol?]

/-- Behind an operand the operator is kept with its usual text. -/
@[simp] lemma stepUsual_hold (x : Outline) (p : Pending) (br : List Bracket) (t : Token) :
    stepUsual (.hold x p br) t = stepHold t.usual x p br := rfl

/-- A field keeps the text of its name. -/
@[simp] lemma stepUsual_field (x : Outline) (p : Pending) (br : List Bracket) (t : Token) :
    stepUsual (.field x p br) t =
      if t.kind = .name then some (.hold (fieldOutline x (leaf t)) p br) else none := by
  rw [stepUsual, step, Token.usual_kind]
  split_ifs with h
  · rw [leaf_usual (by rw [h]; rfl)]
  · rfl

/-! ### Runs -/

/-- The brackets that are open. -/
def State.brackets : State → List Bracket
  | .want _ brackets | .hold _ _ brackets | .field _ _ brackets => brackets

/-- The machine keeps to the conditions of a parse, where they are strict: no
more than `limit` brackets are open at once, a target stands before every `=`,
and no integer is too long. -/
structure Admits (strict : Prop) (limit : ℕ) (q : State) (t : Token) : Prop where
  depth : strict → t.kind.isOpening = true → q.brackets.length < limit
  target : strict → t.kind = .assign → ∀ x p brackets, q = .hold x p brackets →
    (p.compared x).IsTarget
  short : strict → ¬ t.IsLongInteger

/-- The machine takes some tokens, with their usual texts, from one state to
another and keeps to the conditions on the way. -/
inductive Steps (strict : Prop) (limit : ℕ) : State → List Token → State → Prop
  | nil (q : State) : Steps strict limit q [] q
  | cons {q q₁ q' : State} {t : Token} {w : List Token} (ha : Admits strict limit q t)
      (h : stepUsual q t = some q₁) (hs : Steps strict limit q₁ w q') :
      Steps strict limit q (t :: w) q'

section Steps

variable {strict : Prop} {limit : ℕ} {q q' q₁ : State} {t : Token} {v w : List Token}

/-- A run takes its tokens one at a time. -/
lemma steps_cons_iff : Steps strict limit q (t :: w) q' ↔
    Admits strict limit q t ∧ ∃ q₁, stepUsual q t = some q₁ ∧ Steps strict limit q₁ w q' := by
  constructor
  · intro h
    cases h with
    | cons ha h hs => exact ⟨ha, _, h, hs⟩
  · rintro ⟨ha, q₁, h, hs⟩
    exact .cons ha h hs

lemma steps_nil_iff : Steps strict limit q [] q' ↔ q' = q := by
  constructor
  · intro h
    cases h
    rfl
  · rintro rfl
    exact .nil _

lemma steps_one (ha : Admits strict limit q t) (h : stepUsual q t = some q') :
    Steps strict limit q [t] q' := .cons ha h (.nil _)

/-- Two words in a row are taken one after the other. -/
lemma steps_append_iff : Steps strict limit q (v ++ w) q' ↔
    ∃ q₁, Steps strict limit q v q₁ ∧ Steps strict limit q₁ w q' := by
  induction v generalizing q with
  | nil => simp [steps_nil_iff]
  | cons t v ih =>
      simp only [List.cons_append, steps_cons_iff, ih]
      constructor
      · rintro ⟨ha, q₁, h, q₂, hv, hw⟩
        exact ⟨q₂, ⟨ha, q₁, h, hv⟩, hw⟩
      · rintro ⟨q₂, ⟨ha, q₁, h, hv⟩, hw⟩
        exact ⟨ha, q₁, h, q₂, hv, hw⟩

lemma Steps.append (hv : Steps strict limit q v q₁) (hw : Steps strict limit q₁ w q') :
    Steps strict limit q (v ++ w) q' := steps_append_iff.mpr ⟨q₁, hv, hw⟩

/-- The tokens determine the state. -/
lemma Steps.unique {strict' : Prop} {limit' : ℕ} (h : Steps strict limit q w q')
    (h' : Steps strict' limit' q w q₁) : q' = q₁ := by
  induction h with
  | nil q => exact (steps_nil_iff.mp h').symm
  | cons ha h hs ih =>
      obtain ⟨-, q₂, h₂, hs'⟩ := steps_cons_iff.mp h'
      rw [h] at h₂
      exact ih (Option.some.inj h₂ ▸ hs')

/-- What runs under conditions runs without them. -/
lemma Steps.weaken (h : Steps strict limit q w q') : Steps False 0 q w q' := by
  induction h with
  | nil q => exact .nil q
  | cons ha h hs ih => exact .cons ⟨False.elim, False.elim, False.elim⟩ h ih

/-- Without conditions every token is admitted. -/
lemma admits_false (q : State) (t : Token) : Admits False limit q t :=
  ⟨False.elim, False.elim, False.elim⟩

/-- Under the conditions of a parse no long integer is taken. -/
lemma Steps.short (h : Steps strict limit q w q') (hs : strict) : ∀ t ∈ w, ¬ t.IsLongInteger := by
  induction h with
  | nil q => simp
  | cons ha _ _ ih => exact List.forall_mem_cons.mpr ⟨ha.short hs, ih⟩

/-- **The machine finds an outline exactly if it ends in a sentence**, on
tokens with their usual texts. -/
lemma run_eq_outline_iff {o : Outline} (hw : Usual w) :
    run none q w = .outline o ↔ ∃ q', Steps False 0 q w q' ∧ q'.sentence? = some o := by
  induction w generalizing q with
  | nil =>
      simp only [steps_nil_iff, exists_eq_left, run]
      cases q.sentence? <;> simp
  | cons t w ih =>
      obtain ⟨ht, hw⟩ := List.forall_mem_cons.mp hw
      simp only [steps_cons_iff, run, stepUsual, ht]
      cases h : step q t with
      | none => simp
      | some q₁ => simp [ih hw, admits_false]

/-- A text with a place where no terminal matches has no outline. -/
lemma run_stuck (place : Place) (o : Outline) : run (some place) q w ≠ .outline o := by
  induction w generalizing q with
  | nil => simp [run]
  | cons t w ih =>
      rw [run]
      cases step q t with
      | none => simp
      | some q₁ => exact ih

end Steps

end Reference

end ArrayExpr
