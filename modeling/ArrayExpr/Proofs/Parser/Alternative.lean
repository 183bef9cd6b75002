/-
What a failure says was being parsed.

* `Parser.Tagged`: a failure has the name of the innermost operand in brackets that is open
  where it was raised;
* `Parser.Tags`: the failures of a rule do, where an operand is wanted; `Tags.list`,
  `Tags.chain` and those around them: one lemma for each way to make rules from rules;
* `tags_expr`: the rule for expressions does so, whatever the room;
* `exists_tellsOperand`: the name in an error is that of the innermost bracket, open where
  its problem was detected, that was opened where an operand was expected.
-/
import ArrayExpr.Proofs.Parser.ErrorPlace
import ArrayExpr.Proofs.Reference.Enclosure

namespace ArrayExpr

open Grammar

/-- A name is given to a failure that has none. -/
lemma Failure.inAlternative_alternative {g : Failure} (hg : g.alternative ≠ some "")
    (name : String) : (g.inAlternative name).alternative = g.alternative.or (some name) := by
  rw [inAlternative]
  cases h : g.alternative with
  | none => rfl
  | some inner =>
      have hne : inner ≠ "" := fun he => hg (by rw [h, he])
      simp [h, hne]

/-- Whether a token stands between two operands, or between two items of a list. -/
def Kind.Joins (kind : Kind) : Prop := kind.wantsOperand = true ∧ kind.isOpening = false

lemma Kind.Joins.isPlain {t : Token} (ht : t.kind.Joins) : IsPlain t := by
  refine ⟨ht.2, ?_⟩
  cases hk : t.kind <;> simp_all [Kind.Joins, Kind.wantsOperand, Kind.isClosing]

lemma Kind.Joins.ne_finish {kind : Kind} (hk : kind.Joins) : kind ≠ .finish := by
  rintro rfl
  cases hk.1

/-- Behind an operand none is wanted. -/
lemma Grammar.Leaves.not_wants {w : List Token} (hw : Leaves w) : ¬ Wants w := by
  obtain ⟨u, t, rfl, ht⟩ := hw
  rintro (hnil | ⟨u', t', heq, ht'⟩)
  · simp at hnil
  · obtain ⟨-, rfl⟩ := List.append_inj' heq rfl |>.imp_right fun h => by simpa using h
    cases hk : t.kind <;> simp_all [Kind.endsOperand, Kind.wantsOperand]

namespace Parser

open Rule Reference

variable {α β ω : Type} {limit : ℤ} {n : ℕ} {h v w : List Token} {s s' s₁ : TokenStream}
  {g : Failure} {r : Rule α} {step : Rule (Option β)}

/-! ### Names of failures -/

/-- A failure was raised in front of a stream further on. Its name is that of the innermost
operand in brackets that the tokens up to there go into, where the tokens `h` stand before
them. -/
def Tagged (h : List Token) (s : TokenStream) (g : Failure) : Prop :=
  ∃ w s₁, s.Passes w s₁ ∧ g.LiesAt s₁ ∧ Encloses h w g.alternative

/-- Where an operand is wanted, the failures of a rule have such names. -/
def Tags (r : Rule α) : Prop :=
  ∀ ⦃h s g⦄, s.Ordered → Wants h → r.Refuses s g → Tagged h s g

/-- A rule reads balanced words. -/
def Balances (r : Rule α) : Prop :=
  ∀ ⦃s a s'⦄, s.Ordered → r.Gives s a s' → ∃ w, s.Passes w s' ∧ Balanced w

lemma balances_of_reads {G : List Token → α → Prop} {halt ready : Kind → Prop}
    (hr : r.Reads G halt ready) (hG : ∀ w a, G w a → Balanced w) : Balances r := by
  intro s a s' hs ha
  obtain ⟨w, hw, hword, -⟩ := hr.sound hs ha
  exact ⟨w, hw, hG w a hword⟩

lemma tagged_here (hg : g.LiesAt s) (hnone : g.alternative = none) : Tagged h s g :=
  ⟨[], s, rfl, hg, hnone ▸ .closed Balanced.nil⟩

lemma tagged_unexpected (h : List Token) (s : TokenStream) (e : Expectation) :
    Tagged h s (.unexpected s e) := tagged_here (Failure.liesAt_unexpected s e) rfl

/-- A failure further on keeps its name. -/
lemma Tagged.after (hp : s.Passes v s₁) (hv : Balanced v) (hg : Tagged (h ++ v) s₁ g) :
    Tagged h s g := by
  obtain ⟨w, s₂, hw, hat, hin⟩ := hg
  exact ⟨v ++ w, s₂, hp.append hw, hat, hin.after hv⟩

/-- An operand in brackets gives its name to the failures inside that have none. -/
lemma Tagged.inOperand {o : Token} (hp : s.Passes [o] s₁) (ho : o.kind.isOpening = true)
    (hh : Wants h) (hg : Tagged (h ++ [o]) s₁ g) :
    Tagged h s (g.inAlternative o.kind.operandName) := by
  obtain ⟨w, s₂, hw, hat, hin⟩ := hg
  refine ⟨[o] ++ w, s₂, hp.append hw, hat.inAlternative _, ?_⟩
  rw [Failure.inAlternative_alternative hin.name_ne]
  exact .operand Balanced.nil ho (by rwa [List.append_nil]) (by rwa [List.append_nil])

/-- The brackets of a suffix leave failures as they are. -/
lemma Tagged.inSuffix {o : Token} (hp : s.Passes [o] s₁) (ho : o.kind.isOpening = true)
    (hh : ¬ Wants h) (hg : Tagged (h ++ [o]) s₁ g) : Tagged h s g := by
  obtain ⟨w, s₂, hw, hat, hin⟩ := hg
  exact ⟨[o] ++ w, s₂, hp.append hw, hat,
    .suffix Balanced.nil ho (by rwa [List.append_nil]) (by rwa [List.append_nil])⟩

lemma Tags.visited {name : String} (ht : Tags r) : Tags (visit name >>= fun _ => r) :=
  fun _ _ _ hs hh hg => ht hs hh (refuses_visited.mp hg)

/-! ### Brackets -/

/-- **Inside brackets** a failure has the name of an operand further inside. -/
lemma tagged_bracketed {opening closing : Kind} {inside : Rule Expr → Rule α}
    (ho : opening.isOpening = true) (hs : s.Ordered) (hk : s.current.kind = opening)
    (hg : ((Scope.ofRoom limit n).bracketed opening closing inside).Refuses s g)
    (ht : ∀ m, n = m + 1 → Tags (inside (expr limit m)))
    (hb : ∀ m, n = m + 1 → Balances (inside (expr limit m))) :
    s.Passes [s.current] s.advance ∧ Tagged (h ++ [s.current]) s.advance g := by
  have hp := passes_advance hs hk fun hf => by simp [hf, Kind.isOpening] at ho
  have hs' := hs.passes hp
  refine ⟨hp, ?_⟩
  rcases refuses_bracketed_cases hk hg with ⟨-, rfl⟩ | ⟨m, hm, hg | ⟨a, s₁, ha, -, rfl⟩⟩
  · exact tagged_here (Failure.liesAt_ofKind _ _ _) rfl
  · refine ht m hm hs' (wants_concat h ?_) hg
    rw [hk]
    cases opening <;> simp_all [Kind.isOpening, Kind.wantsOperand]
  · obtain ⟨w, hw, hbalanced⟩ := hb m hm hs' ha
    refine Tagged.after hw hbalanced ?_
    split_ifs
    · exact tagged_here (Failure.liesAt_ofKind _ _ _) rfl
    · exact tagged_unexpected _ _ _

/-! ### Lists and chains -/

/-- A step of a repetition: a token that joins, and what the rule `r` reads behind it. -/
structure JoinedSteps (step : Rule (Option β)) (r : Rule α) : Prop where
  gives : ∀ {s b s'}, step.Gives s (some b) s' →
    s.current.kind.Joins ∧ ∃ a, r.Gives s.advance a s'
  refuses : ∀ {s g}, step.Refuses s g → s.current.kind.Joins ∧ r.Refuses s.advance g

lemma JoinedSteps.passes (hj : JoinedSteps step r) (hb : Balances r) {b : β} (hs : s.Ordered)
    (h : step.Gives s (some b) s') : ∃ w, w ≠ [] ∧ s.Passes w s' ∧ Balanced w := by
  obtain ⟨hk, a, ha⟩ := hj.gives h
  have hp := passes_advance hs rfl hk.ne_finish
  obtain ⟨w, hw, hbalanced⟩ := hb (hs.passes hp) ha
  exact ⟨[s.current] ++ w, by simp, hp.append hw, hbalanced.cons hk.isPlain⟩

/-- The rounds of a repetition read a balanced word. -/
lemma JoinedSteps.rounds (hj : JoinedSteps step r) (hb : Balances r) {bs : List β}
    (hr : Rounds step s bs s₁) (hs : s.Ordered) : ∃ w, s.Passes w s₁ ∧ Balanced w := by
  induction hr with
  | refl s => exact ⟨[], rfl, Balanced.nil⟩
  | round hround _ ih =>
      obtain ⟨v, -, hv, hbalanced⟩ := hj.passes hb hs hround
      obtain ⟨w, hw, hbalanced'⟩ := ih (hs.passes hv)
      exact ⟨v ++ w, hv.append hw, hbalanced.append hbalanced'⟩

/-- **A repetition fails behind a token that joins**, where an operand is wanted. -/
lemma JoinedSteps.tagged (hj : JoinedSteps step r) (hb : Balances r) (ht : Tags r)
    (hs : s.Ordered) (hg : (many step).Refuses s g) : Tagged h s g := by
  have hreading : ReadingRounds step := fun _ _ _ hs h => by
    obtain ⟨w, hne, hw, -⟩ := hj.passes hb hs h
    exact ⟨w, hne, hw⟩
  obtain ⟨bs, s₁, hr, hg⟩ := refuses_many hreading hs hg
  obtain ⟨v, hv, hbalanced⟩ := hj.rounds hb hr hs
  obtain ⟨hk, hg⟩ := hj.refuses hg
  have hs₁ := hs.passes hv
  have hp := passes_advance hs₁ rfl hk.ne_finish
  exact .after hv hbalanced (.after hp (.plain hk.isPlain)
    (ht (hs₁.passes hp) (wants_concat _ hk.1) hg))

/-- **A list tags failures** as its items do. -/
lemma Tags.list {name : String} {empty : Bool} {separator : Kind} (hsep : separator.Joins)
    (hb : Balances r) (ht : Tags r) : Tags (separatedList name ⟨true, empty⟩ separator r) := by
  have hj : JoinedSteps (furtherItem ⟨true, empty⟩ separator r) r := by
    refine ⟨fun h => ?_, fun h => ?_⟩
    · obtain ⟨hk, h⟩ := gives_furtherItem_some.mp h
      exact ⟨by rwa [hk], _, h⟩
    · obtain ⟨hk, h, -⟩ := refuses_furtherItem.mp h
      exact ⟨by rwa [hk], h⟩
  intro h s g hs hh hg
  obtain ⟨hg, -⟩ | ⟨a, s₁, hfirst, hg⟩ := refuses_items.mp hg
  · exact ht hs hh hg
  · obtain ⟨v, hv, hbalanced⟩ := hb hs hfirst
    exact .after hv hbalanced (hj.tagged hb ht (hs.passes hv) hg)

/-- **A chain tags failures** as its operands do. -/
lemma Tags.chain {name : String} {op? : Kind → Option ω} {operand : Rule Expr}
    {k : Expr → List (ω × Expr) → Expr} (hop : ∀ kind op, op? kind = some op → kind.Joins)
    (hb : Balances operand) (ht : Tags operand) : Tags (do
      visit name
      let first ← operand
      let links ← many (link? op? operand)
      return k first links) := by
  have hj : JoinedSteps (link? op? operand) operand := by
    refine ⟨fun h => ?_, fun h => ?_⟩
    · obtain ⟨hk, h⟩ := gives_link_some.mp h
      exact ⟨hop _ _ hk, _, h⟩
    · obtain ⟨op, hk, h⟩ := refuses_link h
      exact ⟨hop _ op hk, h⟩
  intro h s g hs hh hg
  obtain hg | ⟨first, s₁, hfirst, hg⟩ := refuses_parts.mp hg
  · exact ht hs hh hg
  · obtain ⟨v, hv, hbalanced⟩ := hb hs hfirst
    exact .after hv hbalanced (hj.tagged hb ht (hs.passes hv) hg)

/-! ### Operands -/

/-- The rule for expressions inside brackets tags failures, where `n` brackets fit. -/
def TagsInside (limit : ℤ) (n : ℕ) : Prop := ∀ m, n = m + 1 → Tags (expr limit m)

lemma balances_expr (limit : ℤ) (m : ℕ) : Balances (expr limit m) :=
  balances_of_reads (reads_expr limit m) fun _ _ hw => hw.balanced

lemma balances_items {name : String} {empty : Bool} (limit : ℤ) (m : ℕ) :
    Balances (separatedList name ⟨true, empty⟩ .comma (expr limit m)) :=
  balances_of_reads (reads_items (inner_ofRoom limit (m + 1))) fun _ _ hw => balanced_items hw

lemma TagsInside.items {name : String} {empty : Bool} {m : ℕ} (hi : TagsInside limit n)
    (hm : n = m + 1) : Tags (separatedList name ⟨true, empty⟩ .comma (expr limit m)) :=
  (hi m hm).list ⟨rfl, rfl⟩ (balances_expr limit m)

lemma balances_row (limit : ℤ) (m : ℕ) : Balances (arrayRow (expr limit m)) :=
  balances_of_reads (reads_items (inner_ofRoom limit (m + 1))).visited fun _ _ hw =>
    balanced_items hw

lemma TagsInside.row {m : ℕ} (hi : TagsInside limit n) (hm : n = m + 1) :
    Tags (arrayRow (expr limit m)) :=
  Tags.visited (hi.items hm)

lemma tagged_group (hi : TagsInside limit n) (hs : s.Ordered) (hh : Wants h)
    (hk : s.current.kind = .openParen) (hg : (group (Scope.ofRoom limit n)).Refuses s g) :
    Tagged h s (g.inAlternative "parenthesized expression") := by
  rw [group, refuses_value fun a => rfl] at hg
  obtain ⟨hp, ht⟩ := tagged_bracketed rfl hs hk hg hi fun m _ => balances_expr limit m
  have hname : s.current.kind.operandName = "parenthesized expression" := by rw [hk]; rfl
  exact hname ▸ ht.inOperand hp (by rw [hk]; rfl) hh

lemma tagged_array (hi : TagsInside limit n) (hs : s.Ordered) (hh : Wants h)
    (hk : s.current.kind = .openBracket) (hg : (array (Scope.ofRoom limit n)).Refuses s g) :
    Tagged h s (g.inAlternative "array literal") := by
  rw [array, refuses_visited, refuses_value fun a => rfl] at hg
  obtain ⟨hp, ht⟩ := tagged_bracketed rfl hs hk hg
    (fun m hm => (hi.row hm).list ⟨rfl, rfl⟩ (balances_row limit m))
    fun m _ => balances_of_reads (reads_rows (inner_ofRoom limit (m + 1))) fun _ _ hw =>
      balanced_rows hw
  have hname : s.current.kind.operandName = "array literal" := by rw [hk]; rfl
  exact hname ▸ ht.inOperand hp (by rw [hk]; rfl) hh

/-- **An operand in brackets gives its name**, a call or an index does not. -/
lemma tagged_operand (hi : TagsInside limit n) (hs : s.Ordered) (hh : Wants h)
    (hk : s.current.kind ≠ .arith .minus) (hg : (operand (Scope.ofRoom limit n)).Refuses s g) :
    Tagged h s g := by
  cases hstart : s.current.kind.startsOperand with
  | false =>
      rw [hg.unique (declines_operand _ s hs hstart)]
      exact tagged_unexpected h s _
  | true =>
      rw [operand, refuses_visited] at hg
      obtain ⟨e, he, rfl⟩ := refuses_called.mp hg
      have hinside : StartsInside limit n := fun m _ => starts_expr limit m
      -- What fails further on is not put down to the operand as a whole.
      have hboth : Beyond e s ∧ Tagged h s e := by
        rcases refuses_operandChoice_cases ⟨hstart, fun _ => hk⟩ he with
          ⟨hkind, g', hg', h'⟩ | ⟨hkind, g', hg', h'⟩
        · have hb : Beyond g' s := fun hrec => (starts_group hinside).passed hs hg' hrec hkind
          rw [h' hb]
          exact ⟨hb.inAlternative _, tagged_group hi hs hh hkind hg'⟩
        · have hb : Beyond g' s := fun hrec => (starts_array hinside).passed hs hg' hrec hkind
          rw [h' hb]
          exact ⟨hb.inAlternative _, tagged_array hi hs hh hkind hg'⟩
      rw [hboth.1.not_declinesAt, if_neg (by simp)]
      exact hboth.2

/-! ### Suffixes -/

/-- **A suffix gives no name**: the brackets of a call or an index are passed over. -/
lemma tagged_suffix (hi : TagsInside limit n) (hs : s.Ordered) (hh : ¬ Wants h)
    (hg : (suffix? (Scope.ofRoom limit n)).Refuses s g) : Tagged h s g := by
  obtain ⟨hk, hg⟩ | ⟨hk, hg⟩ | ⟨hk, hg⟩ := refuses_suffix? hg
  · rw [callSuffix, refuses_visited] at hg
    obtain ⟨hp, ht⟩ := tagged_bracketed rfl hs hk hg (fun m hm => hi.items hm)
      fun m _ => balances_items limit m
    exact ht.inSuffix hp (by rw [hk]; rfl) hh
  · rw [indexSuffix, refuses_visited, refuses_value fun a => rfl] at hg
    obtain ⟨hp, ht⟩ := tagged_bracketed rfl hs hk hg (fun m hm => hi.items hm)
      fun m _ => balances_items limit m
    exact ht.inSuffix hp (by rw [hk]; rfl) hh
  · have hp := passes_advance hs hk (by simp)
    simp only [fieldSuffix, refuses_bind, refuses_spanned, gives_token, not_refuses_pure,
      and_false, exists_false, or_false] at hg
    rcases hg with hg | ⟨t, s₁, ⟨-, rfl, rfl⟩, hg⟩
    · exact absurd hk (refuses_token hg).1
    · obtain ⟨-, e, rfl⟩ := refuses_token hg
      exact .after hp (.plain (isPlain_of_kind hk ⟨rfl, rfl⟩)) (tagged_unexpected _ _ e)

lemma tagged_suffixed (hi : TagsInside limit n) (hs : s.Ordered) (hh : Wants h)
    (hk : s.current.kind ≠ .arith .minus) (hg : (suffixed (Scope.ofRoom limit n)).Refuses s g) :
    Tagged h s g := by
  rw [suffixed, refuses_parts] at hg
  obtain hg | ⟨base, s₁, hbase, hg⟩ := hg
  · exact tagged_operand hi hs hh hk hg
  · have hinner := inner_ofRoom limit n
    obtain ⟨v, hv, hG, -⟩ := (reads_operand hinner).sound hs hbase
    obtain ⟨xs, s₂, hxs, hp, -, hg⟩ := (reads_suffixes hinner).many_refuses (hs.passes hv) hg
    have hword := within_suffixed_iff.mpr ⟨v, base, xs, hG, hxs, rfl, rfl⟩
    have hvp := hv.append hp
    exact .after hvp hword.balanced
      (tagged_suffix hi (hs.passes hvp) (hword.1.leaves.prepend h).not_wants hg)

/-! ### Operators -/

lemma tags_signed (hi : TagsInside limit n) : Tags (signed (Scope.ofRoom limit n)) := by
  intro h s g hs hh hg
  rw [signed, refuses_parts] at hg
  obtain hg | ⟨spans, s₁, hsigns, hg⟩ := hg
  · obtain ⟨bs, s₁, -, hg⟩ := refuses_many reads_signs.reading hs hg
    exact absurd hg not_refuses_sign?
  · obtain ⟨signs, s₂, hsigns, -, hp, -, hnone⟩ := reads_signs.many_sound hs hsigns
    obtain ⟨hne, rfl⟩ := gives_sign?_none.mp hnone
    rw [List.flatMap_singleton'] at hp
    have hplain : ∀ t ∈ signs, Balanced [t] := fun t ht =>
      .plain (isPlain_of_kind (hsigns t ht) ⟨rfl, rfl⟩)
    have hbalanced : Balanced signs := by
      rw [← List.flatMap_singleton' signs]
      exact balanced_flatMap hplain
    have hwants : Wants (h ++ signs) := by
      rcases List.eq_nil_or_concat' signs with rfl | ⟨u, t, rfl⟩
      · rwa [List.append_nil]
      · rw [← List.append_assoc]
        exact wants_concat _ (by rw [hsigns t (by simp)]; rfl)
    exact .after hp hbalanced (tagged_suffixed hi (hs.passes hp) hwants hne hg)

lemma joins_of_productOp (kind : Kind) (op : ArithOp) (h : kind.productOp? = some op) :
    kind.Joins := by
  rw [Kind.productOp?_eq_some_iff] at h
  rw [h.1]
  exact ⟨rfl, rfl⟩

lemma joins_of_sumOp (kind : Kind) (op : ArithOp) (h : kind.sumOp? = some op) : kind.Joins := by
  rw [Kind.sumOp?_eq_some_iff] at h
  rw [h.1]
  exact ⟨rfl, rfl⟩

lemma joins_of_compareOp (kind : Kind) (op : CompareOp) (h : kind.compareOp? = some op) :
    kind.Joins := by
  rw [Kind.compareOp?_eq_some_iff] at h
  rw [h]
  exact ⟨rfl, rfl⟩

lemma tags_comparison (hi : TagsInside limit n) : Tags (comparison (Scope.ofRoom limit n)) :=
  have hinner := inner_ofRoom limit n
  have hproduct : Tags (product (Scope.ofRoom limit n)) := (tags_signed hi).chain
    joins_of_productOp (balances_of_reads (reads_signed hinner) fun _ _ hw => hw.balanced)
  have hsum : Tags (sum (Scope.ofRoom limit n)) := hproduct.chain
    joins_of_sumOp (balances_of_reads (reads_product hinner) fun _ _ hw => hw.balanced)
  hsum.chain joins_of_compareOp (balances_of_reads (reads_sum hinner) fun _ _ hw => hw.balanced)

/-! ### Assignments -/

lemma Sided.wants (hw : Sided w) (hh : Wants h) : Wants (h ++ w) := by
  rcases hw with rfl | ⟨-, u, t, rfl, ht⟩
  · rwa [List.append_nil]
  · rw [← List.append_assoc]
    exact wants_concat _ (by rw [ht]; rfl)

lemma tags_assignment (hi : TagsInside limit n) : Tags (assignment (Scope.ofRoom limit n)) := by
  intro h s g hs hh hg
  rcases refuses_assignment hg with hg | ⟨first, s₁, hfirst, hg⟩
  · exact tags_comparison hi hs hh hg
  · obtain ⟨w, s₂, hw, hsided, ⟨last, rfl, hat⟩ | ⟨-, hg⟩⟩ := refuses_sides hs hfirst hg
    · exact .after hw hsided.balanced (tagged_here hat rfl)
    · exact .after hw hsided.balanced
        (tags_comparison hi (hs.passes hw) (hsided.wants hh) hg)

/-- **The rule for expressions tags its failures**, whatever the room. -/
theorem tags_expr (limit : ℤ) (n : ℕ) : Tags (expr limit n) :=
  expr_induction (P := fun _ r => Tags r) limit (fun _ hi => tags_assignment hi) n

end Parser

/-! ### Errors -/

/-- How many tokens have been read where a problem with the token `i` is detected: those in
front of it, and a bracket too much itself. -/
def ErrorKind.tokensRead (kind : ErrorKind) (i : ℕ) : ℕ :=
  if kind = .nestingTooDeep then i + 1 else i

open Reference

variable {source : String} {tokens : Tokens} {limit : ℤ} {allowPartial : Bool} {e : ParseError}
  {g : Failure}

/-- The tokens that have been read are the beginning of a sentence. -/
lemma Grammar.Reports.viable {limit i offset : ℕ} {kind : ErrorKind}
    (h : Reports limit tokens i kind offset) : Viable (tokens.items.take (kind.tokensRead i)) := by
  cases h with
  | unexpected h | trailing h => exact h.1
  | finish h _ hk => rcases hk with rfl | rfl <;> exact h.1
  | target h => exact viable_of_isPrefix h.viable.2 (List.take_prefix_take_left (Nat.le_succ i))
  | depth h => exact h.viable.2

/-- What is wrong where nothing goes on is not the nesting. -/
lemma Failure.StopsAt.kind_ne {s : TokenStream} (hg : g.StopsAt s) : g.kind ≠ .nestingTooDeep := by
  intro hk
  cases hend : s.atEnd with
  | false => simp [hg.unexpected hend] at hk
  | true => rcases hg.finish hend with hk' | hk' <;> simp [hk'] at hk

/-- **Where a source fails** its leftmost problem is detected, and the failure has the name
of the innermost operand in brackets there. -/
lemma Parser.Fails.encloses (hs : (TokenStream.ofTokens tokens).Ordered)
    (h : Parser.Fails limit tokens g) :
    ∃ i ≤ tokens.items.length, (∀ j < i, ¬ Problem limit.toNat tokens.items j) ∧
      Reports limit.toNat tokens i g.kind g.offset ∧
      Encloses [] (tokens.items.take (g.kind.tokensRead i)) g.alternative := by
  rcases h with h | ⟨tree, rest, h, hend, rfl⟩
  · obtain ⟨w, s, hw, hat, hin⟩ := Parser.tags_expr limit limit.toNat hs (.inl rfl) h
    obtain ⟨w', s', q, hw', hsteps, ho⟩ := Parser.faults_root hs h
    obtain ⟨hi, hword⟩ := TokenStream.take_of_passes_ofTokens hw'
    refine ⟨s'.index, hi, fun j => Steps.no_problem (hword ▸ hsteps) hi, ho.reports hw' hsteps, ?_⟩
    rw [ErrorKind.tokensRead]
    rcases ho.place hs hw hat hw' with ⟨hg, rfl⟩ | ⟨hk, x, _, rfl, hx⟩ | ⟨hk, t, ht, rfl⟩
    · rw [if_neg hg.kind_ne, ← hword]
      exact hin
    · -- The failure was raised in front of the target, which is balanced.
      rw [if_neg (by simp [hk]), ← hword]
      exact hin.append hx.balanced
    · -- The bracket too much has been read.
      obtain ⟨-, hnext⟩ := TokenStream.take_of_passes_ofTokens hw
      rw [hw.unique (hw'.append (TokenStream.passes_one ht)), TokenStream.advance_index ht] at hnext
      rw [if_pos hk, ← hnext]
      exact hin
  · obtain ⟨hi, hd, ⟨q, hsteps, hq⟩, hproblem⟩ := Parser.steps_root hs h
    obtain ⟨w, hw, -⟩ := (Parser.reads_expr limit limit.toNat).sound hs h
    have hlt : rest.index < tokens.items.length := by
      rw [← not_le, ← TokenStream.atEnd_of_passes_ofTokens hw, hend]
      simp
    have hoffset := TokenStream.offset_of_passes_ofTokens hw
    refine ⟨rest.index, hi, fun j => Steps.no_problem hsteps hi, ?_, .closed hd.balanced⟩
    rw [Failure.ofKind, hoffset]
    exact .trailing (hproblem hlt) hlt ⟨tree, hd⟩

/-- What the name in an error says: it is about the token `i`. -/
structure ParseError.TellsOperand (e : ParseError) (limit : ℕ) (tokens : Tokens) (i : ℕ) :
    Prop where
  /-- the token is the leftmost one with a problem -/
  leftmost : ∀ j < i, ¬ Problem limit tokens.items j
  /-- the error reports this problem -/
  reports : Reports limit tokens i e.kind e.offset
  /-- among the brackets open where the problem is detected the name is that of the innermost
  one that was opened where an operand was expected -/
  innermost : Innermost ExpectsOperand (tokens.items.take (e.kind.tokensRead i)) e.alternative

/-- **What an error says was being parsed** is the innermost bracket, open where the problem
was detected, that was opened where an operand was expected. -/
theorem exists_tellsOperand (ht : tokenize source = .ok tokens)
    (h : parseSource limit allowPartial source = .rejected e ∨
      (parse limit source).verdict = .rejected e) :
    ∃ i ≤ tokens.items.length, e.TellsOperand limit.toNat tokens i := by
  obtain ⟨g, hg, rfl⟩ := exists_fails ht h
  obtain ⟨i, hi, hleftmost, hreports, hin⟩ := hg.encloses (tokenize_ordered ht)
  exact ⟨i, hi, hleftmost, hreports, hin.innermost.congr fun u hu =>
    (expectsOperand_iff (viable_of_isPrefix hreports.viable hu)).symm⟩

/-- The array is named, not the call inside it. -/
theorem exists_tellsOperand_call : ∃ tokens e, tokenize "[f(x" = .ok tokens ∧
    parseSource 5 false "[f(x" = .rejected e ∧ e.alternative = some "array literal" ∧
      ∃ i ≤ tokens.items.length, e.TellsOperand 5 tokens i := by
  have ht : tokenize "[f(x" = .ok ⟨[⟨.openBracket, some "[", ⟨0, 1, 1⟩, 1⟩,
      ⟨.name, some "f", ⟨1, 1, 2⟩, 2⟩, ⟨.openParen, some "(", ⟨2, 1, 3⟩, 3⟩,
      ⟨.name, some "x", ⟨3, 1, 4⟩, 4⟩], ⟨.finish, none, ⟨4, 1, 5⟩, 4⟩⟩ := rfl
  have h : parseSource 5 false "[f(x" = .rejected ⟨.unterminatedBracket, 4,
      .closing "')'" ⟨.openParen, some "(", ⟨2, 1, 3⟩, 3⟩, ['[', 'f', '(', 'x'], none,
      some "array literal", none⟩ := by
    rw [parseSource, parseTokens, ht]
    cbv
  exact ⟨_, _, ht, h, rfl, exists_tellsOperand ht (.inl h)⟩

end ArrayExpr
