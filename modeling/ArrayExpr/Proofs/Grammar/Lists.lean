/-
The lists of a tree among the tokens of a derivation.

* `Node.lists`: the arguments of a call, the subscripts of an index, the rows of an array;
* `Grammar.Wants`: an operand is wanted behind a word;
* `Grammar.Lists`: the lists of a node stand in brackets in a word;
* `Derives.lists`: **the lists of every node of a tree do**, in the tokens of the tree and
  whatever stands around them;
* `Listed.last_cases`: behind the last word of a list there is a separator, or one may be
  put there.
-/
import ArrayExpr.Proofs.Grammar.Pairs

namespace ArrayExpr

/-- The lists of items of a node: arguments, subscripts, or rows. -/
def Node.lists {ν χ : Type} : Node ν χ → List (List χ)
  | call _ args | index args => [args]
  | array rows => rows
  | _ => []

/-- What stands in front of an operand. -/
def Kind.wantsOperand : Kind → Bool
  | arith _ | compare _ | assign | openParen | openBracket | comma | semicolon => true
  | _ => false

namespace Grammar

variable {l : Level} {t o c : Token} {u v w x z : List Token} {ws : List (List Token)}
  {separator : Kind} {e base step : Expr}

/-! ### Where an operand is wanted -/

/-- An operand is wanted behind a word. -/
def Wants (w : List Token) : Prop := w = [] ∨ ∃ u t, w = u ++ [t] ∧ t.kind.wantsOperand = true

lemma wants_concat (w : List Token) (ht : t.kind.wantsOperand = true) : Wants (w ++ [t]) :=
  .inr ⟨w, t, rfl, ht⟩

/-! ### Words in a list -/

/-- Around a word of a list there is nothing, or a separator. -/
lemma Listed.exists_around (h : Listed separator ws u) (hw : w ∈ ws) :
    ∃ before behind, u = before ++ (w ++ behind) ∧
      (before = [] ∨ ∃ v t, before = v ++ [t] ∧ t.kind = separator) ∧
        (behind = [] ∨ ∃ t v, behind = t :: v ∧ t.kind = separator) := by
  induction h with
  | last v =>
      obtain rfl := List.mem_singleton.mp hw
      exact ⟨[], [], by simp, .inl rfl, .inl rfl⟩
  | @trailing v t ht =>
      obtain rfl := List.mem_singleton.mp hw
      exact ⟨[], [t], rfl, .inl rfl, .inr ⟨t, [], rfl, ht⟩⟩
  | @more v t ht ws u _ ih =>
      rcases List.mem_cons.mp hw with rfl | hw
      · exact ⟨[], t :: u, rfl, .inl rfl, .inr ⟨t, u, rfl, ht⟩⟩
      · obtain ⟨before, behind, rfl, rfl | ⟨v', t', rfl, ht'⟩, hbehind⟩ := ih hw
        · exact ⟨v ++ [t], behind, by simp, .inr ⟨v, t, rfl, ht⟩, hbehind⟩
        · exact ⟨v ++ t :: (v' ++ [t']), behind, by simp,
            .inr ⟨v ++ t :: v', t', by simp, ht'⟩, hbehind⟩

/-- A list that may be empty is not, where a word stands in it. -/
lemma ListedOrNone.listed (h : ListedOrNone separator ws u) (hw : w ∈ ws) :
    Listed separator ws u := by
  refine h.resolve_left fun hnone => ?_
  rw [hnone.1] at hw
  cases hw

/-- **Behind the last word of a list** there is a separator, or one may be put there. -/
lemma Listed.last_cases (h : Listed separator (ws ++ [w]) u) :
    (∃ v, u = v ++ w ∧ ∀ t, t.kind = separator → Listed separator (ws ++ [w]) (u ++ [t])) ∨
      ∃ v t, u = v ++ w ++ [t] ∧ t.kind = separator := by
  generalize hws : ws ++ [w] = ws' at h
  induction h generalizing ws with
  | last v =>
      obtain ⟨rfl, rfl⟩ : ws = [] ∧ w = v := by simpa using List.append_eq_singleton_iff.mp hws
      exact .inl ⟨[], rfl, fun t ht => .trailing w ht⟩
  | @trailing v t ht =>
      obtain ⟨rfl, rfl⟩ : ws = [] ∧ w = v := by simpa using List.append_eq_singleton_iff.mp hws
      exact .inr ⟨[], t, rfl, ht⟩
  | @more v t ht vs u hu ih =>
      cases ws with
      | nil =>
          obtain ⟨-, rfl⟩ := List.cons.inj hws
          exact absurd rfl hu.ne_nil
      | cons v' ws =>
          obtain ⟨rfl, rfl⟩ := List.cons.inj hws
          rcases ih rfl with ⟨v, rfl, hlast⟩ | ⟨v, t', rfl, ht'⟩
          · refine .inl ⟨v' ++ t :: v, by simp, fun t' ht' => ?_⟩
            simpa using Listed.more v' ht (hlast t' ht')
          · exact .inr ⟨v' ++ t :: v, t', by simp, ht'⟩

/-! ### Lists in brackets -/

/-- The lists of a node stand in brackets in a word: those of a call or an index behind an
operand, those of an array where an operand is wanted. -/
inductive Lists (w : List Token) : Node Literal Expr → Prop
  | call {x u z : List Token} {o c : Token} {callee : Expr} {args : List Phrase} (hx : Leaves x)
      (ho : o.kind = .openParen) (hc : c.kind = .closeParen)
      (hu : ListedOrNone .comma (args.map Phrase.tokens) u)
      (ha : ∀ a ∈ args, Derives .assignment a.tokens a.tree)
      (hw : w = x ++ (o :: u ++ [c]) ++ z) : Lists w (.call callee (args.map Phrase.tree))
  | index {x u z : List Token} {o c : Token} {args : List Phrase} (hx : Leaves x)
      (ho : o.kind = .openBracket) (hc : c.kind = .closeBracket)
      (hu : Listed .comma (args.map Phrase.tokens) u)
      (ha : ∀ a ∈ args, Derives .assignment a.tokens a.tree)
      (hw : w = x ++ (o :: u ++ [c]) ++ z) : Lists w (.index (args.map Phrase.tree))
  | array {x u z : List Token} {o c : Token} {rows : List Row} (hx : Wants x)
      (ho : o.kind = .openBracket) (hc : c.kind = .closeBracket)
      (hu : ListedOrNone .semicolon (rows.map Row.tokens) u)
      (hr : ∀ r ∈ rows, Listed .comma (r.items.map Phrase.tokens) r.tokens)
      (ha : ∀ r ∈ rows, ∀ a ∈ r.items, Derives .assignment a.tokens a.tree)
      (hw : w = x ++ (o :: u ++ [c]) ++ z) : Lists w (.array (rows.map Row.trees))
  | none {n : Node Literal Expr} (h : n.lists = []) : Lists w n

/-- The lists of all nodes of a tree stand in brackets in a word. -/
def AllLists (w : List Token) (e : Expr) : Prop := ∀ n ∈ e.preorder, Lists w n.node

lemma allLists_of_children (h : Lists w e.node) (hc : ∀ c ∈ e.children, AllLists w c) :
    AllLists w e := fun n hn => by
  rcases Tree.mem_preorder_iff.mp hn with rfl | ⟨c, hmem, hn⟩
  · exact h
  · exact hc c hmem n hn

lemma AllLists.child {c : Expr} (h : AllLists w e) (hc : c ∈ e.children) : AllLists w c :=
  fun n hn => h n (Tree.mem_preorder_iff.mpr (.inr ⟨c, hc, hn⟩))

/-- A step more is a child of the access. -/
lemma allLists_withStep (hb : AllLists w base) (hs : AllLists w step) :
    AllLists w (withStep v base step) := by
  obtain ⟨inner, steps, hnode⟩ := exists_withStep_node v base step
  exact allLists_of_children (.none (by rw [hnode]; rfl))
    (forall_children_withStep v hb (fun _ => hb.child) hs)

/-- Phrases of a list in brackets, each of which may stand where an operand is wanted. -/
lemma allLists_phrases {args : List Phrase} (ho : o.kind.wantsOperand = true)
    (hu : Listed .comma (args.map Phrase.tokens) u)
    (iha : ∀ a ∈ args, ∀ x z, Wants x → AllLists (x ++ (a.tokens ++ z)) a.tree)
    (hx : w = x ++ o :: u ++ z) : ∀ c ∈ args.map Phrase.tree, AllLists w c := by
  intro c hc
  obtain ⟨a, hmem, rfl⟩ := List.mem_map.mp hc
  obtain ⟨before, behind, rfl, hbefore, -⟩ := hu.exists_around (List.mem_map_of_mem hmem)
  have hwants : Wants (x ++ o :: before) := by
    rcases hbefore with rfl | ⟨v, t, rfl, ht⟩
    · exact wants_concat x ho
    · exact .inr ⟨x ++ o :: v, t, by simp, by rw [ht]; rfl⟩
  have h := iha a hmem (x ++ o :: before) (behind ++ z) hwants
  simpa [hx] using h

/-- Two trees with a token between them. -/
lemma allLists_between {left right : Expr} (hx : Wants x) (ht : t.kind.wantsOperand = true)
    (ihv : ∀ x z, Wants x → AllLists (x ++ (v ++ z)) left)
    (ihw : ∀ x z, Wants x → AllLists (x ++ (w ++ z)) right) :
    ∀ c ∈ [left, right], AllLists (x ++ (v ++ t :: w ++ z)) c := by
  have hleft := ihv x (t :: w ++ z) hx
  have hright := ihw (x ++ v ++ [t]) z (wants_concat _ ht)
  simp only [List.mem_cons, List.not_mem_nil, or_false, forall_eq_or_imp, forall_eq]
  exact ⟨by simpa using hleft, by simpa using hright⟩

/-- **The lists of every node of a tree stand in brackets** in its tokens, with any words
around them that leave an operand wanted in front. -/
theorem Derives.lists (h : Derives l w e) (x z : List Token) (hx : Wants x) :
    AllLists (x ++ (w ++ z)) e := by
  induction h generalizing x z with
  | value _ ih | comparand _ ih | term _ ih | factor _ ih | unsigned _ ih | bare _ ih =>
      exact ih x z hx
  | assign _ ht _ ihv ihw =>
      exact allLists_of_children (.none rfl) (allLists_between hx (by rw [ht]; rfl) ihv ihw)
  | add _ ht _ ihv ihw | multiply _ ht _ ihv ihw =>
      exact allLists_of_children (.none rfl) (allLists_between hx (by rw [ht.1]; rfl) ihv ihw)
  | @compare w first links _ _ hop _ ihw ihl =>
      refine allLists_of_children (.none rfl) (List.forall_mem_cons.mpr ⟨?_, fun c hc => ?_⟩)
      · simpa using ihw x (links.flatMap Link.tokens ++ z) hx
      · simp only [List.mem_map] at hc
        obtain ⟨_, ⟨k, hk, rfl⟩, rfl⟩ := hc
        obtain ⟨before, behind, rfl⟩ := List.append_of_mem hk
        have hkind : k.token.kind.wantsOperand = true := by
          rw [show k.token.kind = .compare k.op from hop k hk]
          rfl
        have h := ihl k hk (x ++ w ++ before.flatMap Link.tokens ++ [k.token])
          (behind.flatMap Link.tokens ++ z) (wants_concat _ hkind)
        simpa [Link.tokens, Link.side] using h
  | @negate t w e ht _ ih =>
      refine allLists_of_children (.none rfl) (List.forall_mem_singleton.mpr ?_)
      have h := ih (x ++ [t]) z (wants_concat x (by rw [ht]; rfl))
      simpa using h
  | @call v u o c callee args hv ho hc hu ha ihv iha =>
      refine allLists_of_children (.call (z := z) (hv.leaves.prepend x) ho hc hu ha (by simp))
        (List.forall_mem_cons.mpr ⟨by simpa using ihv x (o :: u ++ [c] ++ z) hx, ?_⟩)
      rcases hu with ⟨hargs, -⟩ | hu
      · rw [List.map_eq_nil_iff.mp hargs]
        exact List.forall_mem_nil _
      · exact allLists_phrases (by rw [ho]; rfl) hu iha (by simp : _ = x ++ v ++ o :: u ++ c :: z)
  | @index v u o c base args hv ho hc hu ha ihv iha =>
      refine allLists_withStep (by simpa using ihv x (o :: u ++ [c] ++ z) hx)
        (allLists_of_children (.index (z := z) (hv.leaves.prepend x) ho hc hu ha (by simp)) ?_)
      exact allLists_phrases (by rw [ho]; rfl) hu iha (by simp : _ = x ++ v ++ o :: u ++ c :: z)
  | @field v d t base _ _ _ ihv =>
      exact allLists_withStep (by simpa using ihv x ([d, t] ++ z) hx)
        (allLists_of_children (.none rfl) (List.forall_mem_nil _))
  | literal | name => exact allLists_of_children (.none rfl) (List.forall_mem_nil _)
  | @group u o c inner ho _ _ ih =>
      refine allLists_of_children (.none rfl) (List.forall_mem_singleton.mpr ?_)
      have h := ih (x ++ [o]) ([c] ++ z) (wants_concat x (by rw [ho]; rfl))
      simpa using h
  | @array u o c rows ho hc hu hr ha iha =>
      refine allLists_of_children (.array (z := z) hx ho hc hu hr ha (by simp)) fun child hin => ?_
      obtain ⟨trees, htrees, hchild⟩ := List.mem_flatten.mp hin
      obtain ⟨r, hmem, rfl⟩ := List.mem_map.mp htrees
      have hrows := hu.listed (List.mem_map_of_mem hmem)
      -- The row stands behind the opening bracket or a semicolon.
      obtain ⟨before, behind, rfl, hbefore, -⟩ := hrows.exists_around (List.mem_map_of_mem hmem)
      obtain ⟨y, b, hy, hb⟩ : ∃ y b, x ++ o :: before = y ++ [b] ∧ b.kind.wantsOperand = true := by
        rcases hbefore with rfl | ⟨v, t, rfl, ht⟩
        · exact ⟨x, o, rfl, by rw [ho]; rfl⟩
        · exact ⟨x ++ o :: v, t, by simp, by rw [ht]; rfl⟩
      have hw : x ++ (o :: (before ++ (r.tokens ++ behind)) ++ [c] ++ z) =
          y ++ b :: r.tokens ++ (behind ++ c :: z) :=
        calc x ++ (o :: (before ++ (r.tokens ++ behind)) ++ [c] ++ z)
            = (x ++ o :: before) ++ (r.tokens ++ (behind ++ c :: z)) := by simp
          _ = y ++ b :: r.tokens ++ (behind ++ c :: z) := by simp [hy]
      exact allLists_phrases hb (hr r hmem) (iha r hmem) hw child hchild

/-- The lists of every node of a tree stand in brackets in its tokens. -/
lemma Derives.allLists (h : Derives l w e) : AllLists w e := by
  simpa using h.lists [] [] (.inl rfl)

end Grammar

end ArrayExpr
