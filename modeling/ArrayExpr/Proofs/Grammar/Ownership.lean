/-
The tokens that the nodes of a tree are written with.

* `Grammar.OwnTokens`: the tokens that belong to a node itself, by its form;
* `Grammar.Owns`: a node owns a range of tokens; the ranges of its children lie
  inside one after another, and the tokens in none of them are its own;
* `Grammar.Fills`: words of children with own tokens between them, from which
  ranges follow (`Formed.placed`);
* `Derives.owns`: the tree of a derivation owns the tokens of the derivation.
-/
import ArrayExpr.Proofs.Grammar.Unrolled

namespace ArrayExpr

namespace Grammar

/-! ### Own tokens -/

/-- The separators of a list of items: the list with all items left out. -/
def Separators {α : Type} (separator : Kind) (items : List α) (w : List Token) : Prop :=
  Listed separator (items.map fun _ => []) w

/-- The tokens that belong to a node itself and not to its children, by the
form of the node: its literal or name, operators, brackets and separators. -/
def OwnTokens {χ : Type} : Node Literal χ → List Token → Prop
  | .literal l, w => ∃ t, w = [t] ∧ t.kind = .literal l.kind ∧ l.text = t.text.getD ""
  | .name s, w => ∃ t, w = [t] ∧ t.kind = .name ∧ s = t.text.getD ""
  | .array rows, w => ∃ o u c ws, w = o :: u ++ [c] ∧ o.kind = .openBracket ∧
    c.kind = .closeBracket ∧ List.Forall₂ (Separators .comma) rows ws ∧
    ListedOrNone .semicolon ws u
  | .group _, w => ∃ o c, w = [o, c] ∧ o.kind = .openParen ∧ c.kind = .closeParen
  | .call _ args, w => ∃ o u c, w = o :: u ++ [c] ∧ o.kind = .openParen ∧
    c.kind = .closeParen ∧ (args = [] ∧ u = [] ∨ Separators .comma args u)
  | .index args, w => ∃ o u c, w = o :: u ++ [c] ∧ o.kind = .openBracket ∧
    c.kind = .closeBracket ∧ Separators .comma args u
  | .field s, w => ∃ d t, w = [d, t] ∧ d.kind = .dot ∧ t.kind = .name ∧ s = t.text.getD ""
  | .access _ _, w => w = []
  | .negate _, w => ∃ t, w = [t] ∧ t.kind = .arith .minus
  | .arith _ op _, w => ∃ t, w = [t] ∧ t.kind = .arith op
  | .comparison _ links, w => List.Forall₂ (fun t link => t.kind = .compare link.1) w links
  | .assign _ _, w => ∃ t, w = [t] ∧ t.kind = .assign

/-! ### Ranges -/

/-- Whether a place lies in none of some ranges. -/
def outside (ranges : List (ℕ × ℕ)) (k : ℕ) : Bool := ranges.all fun r => k < r.1 || r.2 ≤ k

/-- The tokens from `i` up to `j` that lie in none of some ranges. -/
def remaining (items : List Token) (i j : ℕ) (ranges : List (ℕ × ℕ)) : List Token :=
  ((List.range' i (j - i)).filter (outside ranges)).filterMap (items[·]?)

/-- **A node owns the tokens from `i` up to `j`.** There is one at least; the
node starts with the first and stops with the last of them. Its children own
ranges inside, one after another, and the tokens in none of these are those
that belong to the node itself. -/
inductive Owns (items : List Token) : Expr → ℕ → ℕ → Prop
  | intro {e : Expr} {i j : ℕ} {ranges : List (ℕ × ℕ)} {first last : Token}
      (nonempty : i < j) (hfirst : items[i]? = some first)
      (start : e.span.start = first.start.offset) (hlast : items[j - 1]? = some last)
      (stop : e.span.stop = last.stop)
      (children : List.Forall₂ (fun c r => Owns items c r.1 r.2) e.children ranges)
      (inside : ∀ r ∈ ranges, i ≤ r.1 ∧ r.2 ≤ j)
      (increasing : ranges.Pairwise fun r r' => r.2 ≤ r'.1)
      (own : OwnTokens e.node (remaining items i j ranges)) : Owns items e i j

section Remaining

variable {items : List Token} {ranges : List (ℕ × ℕ)} {i j m : ℕ} {t : Token}

lemma remaining_self (items : List Token) (i : ℕ) (ranges : List (ℕ × ℕ)) :
    remaining items i i ranges = [] := by
  simp [remaining]

lemma outside_of_lt (h : ∀ r ∈ ranges, i < r.1) : outside ranges i = true := by
  rw [outside, List.all_eq_true]
  intro r hr
  simp [h r hr]

/-- A token in front of all ranges remains. -/
lemma remaining_cons (ht : items[i]? = some t) (hij : i < j) (h : ∀ r ∈ ranges, i < r.1) :
    remaining items i j ranges = t :: remaining items (i + 1) j ranges := by
  have hsucc : j - i = j - (i + 1) + 1 := by omega
  rw [remaining, hsucc, List.range'_succ, List.filter_cons_of_pos (outside_of_lt h),
    List.filterMap_cons_some ht, remaining]

/-- The tokens of the first range do not remain. -/
lemma remaining_skip (him : i ≤ m) (hmj : m ≤ j) :
    remaining items i j ((i, m) :: ranges) = remaining items m j ranges := by
  have hsplit : List.range' i (j - i) = List.range' i (m - i) ++ List.range' m (j - m) := by
    have happ := List.range'_append_1 (s := i) (m := m - i) (n := j - m)
    have hlen : m - i + (j - m) = j - i := by omega
    rw [Nat.add_sub_cancel' him, hlen] at happ
    exact happ.symm
  have hin : (List.range' i (m - i)).filter (outside ((i, m) :: ranges)) = [] := by
    rw [List.filter_eq_nil_iff]
    intro k hk
    rw [List.mem_range'_1] at hk
    have h1 : ¬ k < i := by omega
    have h2 : ¬ m ≤ k := by omega
    simp [outside, h1, h2]
  have hbehind : (List.range' m (j - m)).filter (outside ((i, m) :: ranges)) =
      (List.range' m (j - m)).filter (outside ranges) := by
    refine List.filter_congr fun k hk => ?_
    rw [List.mem_range'_1] at hk
    simp [outside, hk.1]
  have hfilter : (List.range' i (j - i)).filter (outside ((i, m) :: ranges)) =
      (List.range' m (j - m)).filter (outside ranges) :=
    calc (List.range' i (j - i)).filter (outside ((i, m) :: ranges))
        = (List.range' i (m - i)).filter (outside ((i, m) :: ranges)) ++
            (List.range' m (j - m)).filter (outside ((i, m) :: ranges)) := by
          rw [hsplit, List.filter_append]
      _ = (List.range' m (j - m)).filter (outside ranges) := by
          rw [hin, hbehind, List.nil_append]
  rw [remaining, hfilter, remaining]

end Remaining

/-! ### Words of children -/

/-- Wherever the word stands among some tokens, the tree owns it. -/
def Placed (e : Expr) (w : List Token) : Prop :=
  ∀ items pre post, items = pre ++ (w ++ post) → Owns items e pre.length (pre.length + w.length)

/-- The words of some children, in order, with own tokens around them. -/
inductive Fills : List Expr → List Token → List Token → Prop
  | nil : Fills [] [] []
  | own (t : Token) {cs : List Expr} {os w : List Token} (h : Fills cs os w) :
      Fills cs (t :: os) (t :: w)
  | child {c : Expr} {v : List Token} (hc : Placed c v) {cs : List Expr} {os w : List Token}
      (h : Fills cs os w) : Fills (c :: cs) os (v ++ w)

section Fills

variable {cs cs' : List Expr} {os os' v w : List Token} {e c : Expr}

lemma Fills.append (h : Fills cs os v) (h' : Fills cs' os' w) :
    Fills (cs ++ cs') (os ++ os') (v ++ w) := by
  induction h with
  | nil => exact h'
  | own t _ ih => exact .own t ih
  | child hc _ ih => simpa using Fills.child hc ih

lemma fills_child (hc : Placed c v) : Fills [c] [] v := by
  simpa using Fills.child hc .nil

lemma fills_own (w : List Token) : Fills [] w w := by
  induction w with
  | nil => exact .nil
  | cons t w ih => exact .own t ih

/-- **Words of children lie in ranges one after another**, and the own tokens
are what remains. -/
lemma Fills.exists_ranges (h : Fills cs os w) (items pre post : List Token)
    (hitems : items = pre ++ (w ++ post)) :
    ∃ ranges, List.Forall₂ (fun c r => Owns items c r.1 r.2) cs ranges ∧
      (∀ r ∈ ranges, pre.length ≤ r.1 ∧ r.2 ≤ pre.length + w.length) ∧
      (ranges.Pairwise fun r r' => r.2 ≤ r'.1) ∧
      remaining items pre.length (pre.length + w.length) ranges = os := by
  induction h generalizing pre with
  | nil => exact ⟨[], .nil, by simp, .nil, remaining_self _ _ _⟩
  | @own t cs os w _ ih =>
      obtain ⟨ranges, hown, hin, hinc, hrem⟩ := ih (pre ++ [t]) (by simp [hitems])
      have hlen : (pre ++ [t]).length = pre.length + 1 := by simp
      have hlen' : (pre ++ [t]).length + w.length = pre.length + (t :: w).length := by
        rw [hlen, List.length_cons]
        omega
      rw [hlen', hlen] at hin hrem
      have hin' : ∀ r ∈ ranges, pre.length ≤ r.1 ∧ r.2 ≤ pre.length + (t :: w).length := by
        intro r hr
        have hr := hin r hr
        omega
      refine ⟨ranges, hown, hin', hinc, ?_⟩
      have ht : items[pre.length]? = some t := by simp [hitems]
      rw [remaining_cons ht (by simp) fun r hr => (hin r hr).1, hrem]
  | @child c v hc cs os w _ ih =>
      obtain ⟨ranges, hown, hin, hinc, hrem⟩ := ih (pre ++ v) (by simp [hitems])
      have hfirst := hc items pre (w ++ post) (by simp [hitems])
      have hlen : (pre ++ v).length = pre.length + v.length := List.length_append
      have hlen' : (pre ++ v).length + w.length = pre.length + (v ++ w).length := by
        rw [hlen, List.length_append]
        omega
      rw [hlen', hlen] at hin hrem
      have hle : pre.length + v.length ≤ pre.length + (v ++ w).length := by simp
      refine ⟨(pre.length, pre.length + v.length) :: ranges, .cons hfirst hown, ?_, ?_, ?_⟩
      · refine List.forall_mem_cons.mpr ⟨⟨le_rfl, hle⟩, fun r hr => ?_⟩
        have hr := hin r hr
        omega
      · exact List.pairwise_cons.mpr ⟨fun r hr => (hin r hr).1, hinc⟩
      · rw [remaining_skip (Nat.le_add_right _ _) hle, hrem]

/-- A tree is formed by a word: it spans the word, which is made up of the
words of its children and its own tokens. -/
structure Formed (e : Expr) (w : List Token) : Prop where
  ne_nil : w ≠ []
  span : e.span = extent w
  fills : ∃ os, Fills e.children os w ∧ OwnTokens e.node os

/-- **What forms a tree is owned by it**, wherever it stands. -/
lemma Formed.placed (h : Formed e w) : Placed e w := by
  intro items pre post hitems
  obtain ⟨os, hfills, hown⟩ := h.fills
  obtain ⟨ranges, hchildren, hin, hinc, hrem⟩ := hfills.exists_ranges items pre post hitems
  have hlen := List.length_pos_iff.mpr h.ne_nil
  have hfirst : items[pre.length]? = some (w.head h.ne_nil) := by
    rw [hitems, List.getElem?_append_right le_rfl, Nat.sub_self,
      List.getElem?_append_left hlen, ← List.head?_eq_getElem?, List.head?_eq_some_head]
  have hlast : items[pre.length + w.length - 1]? = some (w.getLast h.ne_nil) := by
    have hindex : pre.length + w.length - 1 - pre.length = w.length - 1 := by omega
    rw [hitems, List.getElem?_append_right (by omega), List.getElem?_append_left (by omega), hindex,
      ← List.getLast?_eq_getElem?, List.getLast?_eq_some_getLast]
  refine .intro (by omega) hfirst ?_ hlast ?_ hchildren hin hinc (hrem ▸ hown)
  · rw [h.span, extent, List.head?_eq_some_head h.ne_nil]
    rfl
  · rw [h.span, extent, List.getLast?_eq_some_getLast h.ne_nil]
    rfl

end Fills

/-! ### Lists -/

/-- The words of a list are filled where the words of its items are: what the
items leave over stands between the separators. -/
lemma Listed.fills {π : Type} {words : π → List Token} {trees : π → List Expr}
    {R : π → List Token → Prop} {separator : Kind} {ps : List π} {u : List Token}
    (h : Listed separator (ps.map words) u)
    (hp : ∀ p ∈ ps, ∃ os, R p os ∧ Fills (trees p) os (words p)) :
    ∃ oss os, List.Forall₂ R ps oss ∧ Listed separator oss os ∧
      Fills (ps.flatMap trees) os u := by
  generalize hws : ps.map words = ws at h
  induction h generalizing ps with
  | last w =>
      obtain ⟨p, rfl, rfl⟩ : ∃ p, ps = [p] ∧ words p = w := by simpa using hws
      obtain ⟨os, hR, hf⟩ := hp p (by simp)
      exact ⟨[os], os, .cons hR .nil, .last os, by simpa using hf⟩
  | @trailing w t ht =>
      obtain ⟨p, rfl, rfl⟩ : ∃ p, ps = [p] ∧ words p = w := by simpa using hws
      obtain ⟨os, hR, hf⟩ := hp p (by simp)
      exact ⟨[os], os ++ [t], .cons hR .nil, .trailing os ht, by
        simpa using hf.append (fills_own [t])⟩
  | @more w t ht ws u _ ih =>
      obtain ⟨p, ps, rfl, rfl, hps⟩ := List.map_eq_cons_iff.mp hws
      obtain ⟨hp, hrest⟩ := List.forall_mem_cons.mp hp
      obtain ⟨os, hR, hf⟩ := hp
      obtain ⟨oss, os', hRs, hl, hfs⟩ := ih hrest hps
      exact ⟨os :: oss, os ++ t :: os', .cons hR hRs, .more os ht hl, by
        simpa using hf.append (.own t hfs)⟩

lemma eq_map_nil {α : Type} {as : List α} {oss : List (List Token)}
    (h : List.Forall₂ (fun _ os => os = []) as oss) : oss = as.map fun _ => [] := by
  induction h with
  | nil => rfl
  | cons h _ ih => rw [h, ih, List.map_cons]

/-- The separators of phrases are what their words leave over. -/
lemma Listed.fills_phrases {args : List Phrase} {u : List Token}
    (h : Listed .comma (args.map Phrase.tokens) u) (ha : ∀ a ∈ args, Formed a.tree a.tokens) :
    ∃ os, Separators .comma (args.map Phrase.tree) os ∧ Fills (args.map Phrase.tree) os u := by
  have hitems : ∀ a ∈ args, ∃ os, os = [] ∧ Fills [a.tree] os a.tokens := fun a hm =>
    ⟨[], rfl, fills_child (ha a hm).placed⟩
  obtain ⟨oss, os, hR, hl, hf⟩ := h.fills hitems
  rw [eq_map_nil hR] at hl
  rw [← List.map_eq_flatMap] at hf
  exact ⟨os, by rwa [Separators, List.map_map], hf⟩

/-! ### Derivations -/

section Derivation

variable {v w u : List Token} {t o c d : Token} {e : Expr}

lemma fills_between {left right : Expr} (hv : Formed left v) (hw : Formed right w) :
    Fills [left, right] [t] (v ++ t :: w) := by
  simpa using (fills_child hv.placed).append (.own t (fills_child hw.placed))

/-- Own tokens around what the items of a bracket fill. -/
lemma fills_bracket {cs : List Expr} {os : List Token} (h : Fills cs os u) :
    Fills cs (o :: os ++ [c]) (o :: u ++ [c]) := by
  simpa using Fills.own o (h.append (fills_own [c]))

/-- A step more is the last child of an access. -/
lemma formed_withStep {base step : Expr} (hv : Formed base v) (hw : Formed step w) :
    Formed (withStep (v ++ w) base step) (v ++ w) := by
  have hne : v ++ w ≠ [] := by simp [hv.ne_nil]
  refine ⟨hne, by simp, [], ?_⟩
  rcases hnode : base.node with _ | _ | _ | _ | _ | _ | _ | ⟨inner, steps⟩ | _ | _ | _ | _
  case access =>
    obtain ⟨os, hf, hos⟩ := hv.fills
    simp only [Tree.children, hnode, Node.children, OwnTokens] at hf hos
    subst hos
    simp only [withStep, hnode, node, Tree.children, Node.children, OwnTokens, and_true]
    simpa using hf.append (fills_child hw.placed)
  all_goals
    simp only [withStep, hnode, node, Tree.children, Node.children, OwnTokens, and_true]
    simpa using (fills_child hv.placed).append (fills_child hw.placed)

/-- A call with its callee and arguments. -/
lemma formed_call {callee : Expr} {args : List Phrase} (hv : Formed callee v)
    (ho : o.kind = .openParen) (hc : c.kind = .closeParen)
    (hu : ListedOrNone .comma (args.map Phrase.tokens) u)
    (ha : ∀ a ∈ args, Formed a.tree a.tokens) :
    Formed (node (v ++ (o :: u ++ [c])) (.call callee (args.map Phrase.tree)))
      (v ++ (o :: u ++ [c])) := by
  have hargs : ∃ os, (args.map Phrase.tree = [] ∧ os = [] ∨
      Separators .comma (args.map Phrase.tree) os) ∧ Fills (args.map Phrase.tree) os u := by
    rcases hu with ⟨hnil, rfl⟩ | hu
    · obtain rfl := List.map_eq_nil_iff.mp hnil
      exact ⟨[], Or.inl ⟨rfl, rfl⟩, .nil⟩
    · obtain ⟨os, hos, hf⟩ := hu.fills_phrases ha
      exact ⟨os, Or.inr hos, hf⟩
  obtain ⟨os, hos, hf⟩ := hargs
  refine ⟨by simp, rfl, o :: os ++ [c], ?_, o, os, c, rfl, ho, hc, hos⟩
  exact (fills_child hv.placed).append (fills_bracket hf)

lemma formed_index {args : List Phrase} (ho : o.kind = .openBracket) (hc : c.kind = .closeBracket)
    (hu : Listed .comma (args.map Phrase.tokens) u) (ha : ∀ a ∈ args, Formed a.tree a.tokens) :
    Formed (node (o :: u ++ [c]) (.index (args.map Phrase.tree))) (o :: u ++ [c]) := by
  obtain ⟨os, hos, hf⟩ := hu.fills_phrases ha
  exact ⟨by simp, rfl, o :: os ++ [c], fills_bracket hf, o, os, c, rfl, ho, hc, hos⟩

lemma formed_array {rows : List Row} (ho : o.kind = .openBracket) (hc : c.kind = .closeBracket)
    (hu : ListedOrNone .semicolon (rows.map Row.tokens) u)
    (hr : ∀ r ∈ rows, Listed .comma (r.items.map Phrase.tokens) r.tokens)
    (ha : ∀ r ∈ rows, ∀ a ∈ r.items, Formed a.tree a.tokens) :
    Formed (node (o :: u ++ [c]) (.array (rows.map Row.trees))) (o :: u ++ [c]) := by
  have hrows : ∃ ws os, List.Forall₂ (Separators .comma) (rows.map Row.trees) ws ∧
      ListedOrNone .semicolon ws os ∧ Fills (rows.map Row.trees).flatten os u := by
    rcases hu with ⟨hnil, rfl⟩ | hu
    · obtain rfl := List.map_eq_nil_iff.mp hnil
      exact ⟨[], [], .nil, Or.inl ⟨rfl, rfl⟩, .nil⟩
    · obtain ⟨ws, os, hws, hos, hf⟩ := hu.fills fun r hm => (hr r hm).fills_phrases (ha r hm)
      exact ⟨ws, os, List.forall₂_map_left_iff.mpr hws, Or.inr hos, by
        rwa [← List.flatMap_def]⟩
  obtain ⟨ws, os, hws, hos, hf⟩ := hrows
  exact ⟨by simp, rfl, o :: os ++ [c], fills_bracket hf, o, os, c, ws, rfl, ho, hc, hws, hos⟩

/-- The operands and operators of a chain of comparisons. -/
lemma fills_links {links : List (Link CompareOp)}
    (hl : ∀ l ∈ links, Formed l.right.tree l.right.tokens) :
    Fills ((links.map Link.side).map (·.2)) (links.map Link.token) (links.flatMap Link.tokens) := by
  induction links with
  | nil => exact .nil
  | cons l links ih =>
      obtain ⟨hl, hls⟩ := List.forall_mem_cons.mp hl
      rw [List.flatMap_cons, Link.tokens]
      exact .own l.token (.child hl.placed (ih hls))

/-- **The words of a derivation form its trees.** -/
lemma Derives.formed {l : Level} (h : Derives l w e) : Formed e w := by
  induction h with
  | value _ ih | comparand _ ih | term _ ih | factor _ ih | unsigned _ ih | bare _ ih => exact ih
  | @assign v w t target value hv ht hw ihv ihw =>
      exact ⟨by simp, rfl, [t], fills_between ihv ihw, t, rfl, ht⟩
  | @compare w first links hw _ hop hl ihw ihl =>
      refine ⟨by simp [ihw.ne_nil], rfl, links.map Link.token, ?_, ?_⟩
      · exact .child ihw.placed (fills_links ihl)
      · rw [node, OwnTokens, List.forall₂_map_left_iff, List.forall₂_map_right_iff,
          List.forall₂_same]
        exact hop
  | @add v w t op left right hv ht hw ihv ihw | @multiply v w t op left right hv ht hw ihv ihw =>
      exact ⟨by simp, rfl, [t], fills_between ihv ihw, t, rfl, ht.1⟩
  | @negate t w e ht hw ih =>
      exact ⟨by simp, rfl, [t], .own t (fills_child ih.placed), t, rfl, ht⟩
  | call hv ho hc hu ha ihv iha => exact formed_call ihv ho hc hu iha
  | index hv ho hc hu ha ihv iha => exact formed_withStep ihv (formed_index ho hc hu iha)
  | @field v d t base hv hd ht ihv =>
      exact formed_withStep ihv ⟨by simp, rfl, [d, t], fills_own [d, t], d, t, rfl, hd, ht, rfl⟩
  | @literal t kind ht => exact ⟨by simp, rfl, [t], fills_own [t], t, rfl, ht, rfl⟩
  | @name t ht => exact ⟨by simp, rfl, [t], fills_own [t], t, rfl, ht, rfl⟩
  | @group u o c inner ho hc hu ih =>
      exact ⟨by simp, rfl, [o, c], fills_bracket (fills_child ih.placed), o, c, rfl, ho, hc⟩
  | array ho hc hu hr ha iha => exact formed_array ho hc hu hr iha

/-- **The tree of a derivation owns its tokens**, wherever they stand. -/
theorem Derives.owns {l : Level} (h : Derives l w e) (pre post : List Token) :
    Owns (pre ++ (w ++ post)) e pre.length (pre.length + w.length) :=
  h.formed.placed _ pre post rfl

end Derivation

end Grammar

end ArrayExpr
