/-
What the rules of the parser pay when they succeed.

* `Rule.collect_bill`, `Rule.many_bill`: a repetition pays for each of its rounds;
* `Rule.ItemBills`, `Rule.list_bill`: a list in brackets pays for its items and for those
  that are missing;
* `Parser.Bills`: a rule pays for the rules of its level, for the price of its tree and for
  the probes of its tokens;
* `Parser.bills_operand` and those after it: one lemma for each level;
* `Parser.bills_expr`: **so does the rule for expressions**.
-/
import ArrayExpr.Proofs.Rule.Bill
import ArrayExpr.Proofs.Parser.Price

namespace ArrayExpr

open Grammar

namespace Rule

variable {α β σ : Type} {s s' s₁ : TokenStream} {m : Multiset String} {t o p : Token}

/-! ### Rounds -/

/-- **A repetition pays for each of its rounds**, if a round pays for what it gives and for
the tokens that it reads. -/
lemma collect_bill {step : σ → Rule (Option (β × σ))} {price : β → Multiset String}
    {P : β → Prop} (hs : s.Ordered)
    (hnone : ∀ {s state s' m}, (step state).Pays s none s' m → s' = s ∧ m = 0)
    (hsome : ∀ {s state b next s' m}, TokenStream.Ordered s →
      (step state).Pays s (some (b, next)) s' m →
      ∃ u, s.Passes u s' ∧ Leads u ∧ P b ∧ m = price b + probes u)
    {state : σ} {bs : List β} (h : (collect step state).Pays s bs s' m) :
    ∃ u, s.Passes u s' ∧ (u = [] ∨ Leads u) ∧ (∀ b ∈ bs, P b) ∧
      m = (bs.map price).sum + probes u := by
  have hfrom : ∀ {s : TokenStream}, s.Ordered → ReadingFrom step s := by
    intro s hs v s₀ hp state b next s₁ h
    obtain ⟨u, hu, ⟨t, u', rfl, -⟩, -⟩ := hsome (hs.passes hp) h.pays
    exact ⟨_, by simp, hu⟩
  induction bs generalizing s state m with
  | nil =>
      rcases pays_collect (hfrom hs) h with ⟨-, h⟩ | ⟨b, next, bs', s₁, m₁, m₂, hbs, -⟩
      · obtain ⟨rfl, rfl⟩ := hnone h
        exact ⟨[], rfl, .inl rfl, List.forall_mem_nil _, rfl⟩
      · cases hbs
  | cons b bs ih =>
      rcases pays_collect (hfrom hs) h with
        ⟨hbs, -⟩ | ⟨b', next, bs', s₁, m₁, m₂, hbs, hb, hrest, rfl⟩
      · cases hbs
      · obtain ⟨rfl, rfl⟩ := List.cons.inj hbs
        obtain ⟨u, hu, hlead, hP, rfl⟩ := hsome hs hb
        obtain ⟨v, hv, hlead', hbs, rfl⟩ := ih (hs.passes hu) hrest
        refine ⟨u ++ v, hu.append hv, .inr (hlead.append v), List.forall_mem_cons.mpr ⟨hP, hbs⟩, ?_⟩
        rw [probes_append hlead', List.map_cons, List.sum_cons]
        abel

/-- A repetition without state, likewise. -/
lemma many_bill {step : Rule (Option β)} {price : β → Multiset String} {P : β → Prop}
    (hs : s.Ordered) (hnone : ∀ {s s' m}, step.Pays s none s' m → s' = s ∧ m = 0)
    (hsome : ∀ {s b s' m}, TokenStream.Ordered s → step.Pays s (some b) s' m →
      ∃ u, s.Passes u s' ∧ Leads u ∧ P b ∧ m = price b + probes u)
    {bs : List β} (h : (many step).Pays s bs s' m) :
    ∃ u, s.Passes u s' ∧ (u = [] ∨ Leads u) ∧ (∀ b ∈ bs, P b) ∧
      m = (bs.map price).sum + probes u := by
  rw [many_eq_collect] at h
  refine collect_bill hs (fun {s state s' m} h => ?_) (fun {s state b next s' m} hs h => ?_) h
  · obtain ⟨found, hfound, h⟩ := pays_bind_pure.mp h
    cases found with
    | none => exact hnone h
    | some b => cases hfound
  · obtain ⟨found, hfound, h⟩ := pays_bind_pure.mp h
    cases found with
    | none => cases hfound
    | some b' =>
        obtain rfl : b = b' := (Prod.mk.inj (Option.some.inj hfound)).1
        exact hsome hs h

/-! ### Lists -/

/-- An item pays its price and for its probes, up to the token behind it; in front of the
closing token it is missing, which the probe behind a separator pays for. -/
structure ItemBills (item : Rule α) (separator closer : Kind) (price : α → Multiset String) :
    Prop where
  passes : ∀ {s a s₁}, s.Ordered → item.Gives s a s₁ → ∃ v, s.Passes v s₁
  bill : ∀ {s a s₁}, s.Ordered → item.Gives s a s₁ →
    s₁.current.kind = separator ∨ s₁.current.kind = closer →
    ∃ v, s.Passes v s₁ ∧ Leads v ∧
      Rule.bill (item s).visits = price a + probes (v ++ [s₁.current])
  missing : ∀ {s p}, s.Ordered → s.current.kind = closer → p.kind = separator →
    Rule.bill (item s).visits = probe (p, s.current)

section Lists

variable {item : Rule α} {separator closer : Kind} {price : α → Multiset String} {as : List α}

/-- **The items of a list pay their prices**, and each separator in front of a missing item
its probe. -/
lemma onePass_bill (h : ItemBills item separator closer price) (hsep : separator ≠ .finish)
    (hs : s.Ordered) (hlist : (onePass separator item).Gives s as s')
    (hc : s'.current.kind = closer) (hne : as ≠ []) :
    ∃ u, s.Passes u s' ∧ Leads u ∧ bill (onePass separator item s).visits =
      (as.map price).sum + probes (u ++ [s'.current]) := by
  have hforward : ∀ {s : TokenStream}, s.Ordered → ForwardFrom item s :=
    fun hs w s₀ a s₁ hp ha => h.passes (hs.passes hp) ha
  induction as generalizing s with
  | nil => exact absurd rfl hne
  | cons a as ih =>
      rcases onePass_cases (hforward hs) hs hsep hlist with
        ⟨has, -⟩ | ⟨a', has, ha, -, hvisits⟩ | ⟨a', as', s₁, has, ha, hk, hothers, hvisits⟩
      · cases has
      · obtain ⟨rfl, rfl⟩ := List.cons.inj has
        obtain ⟨v, hv, hlead, hbill⟩ := h.bill hs ha (.inr hc)
        exact ⟨v, hv, hlead, by rw [hvisits, hbill]; simp⟩
      · obtain ⟨rfl, rfl⟩ := List.cons.inj has
        obtain ⟨v, hv, hlead, hbill⟩ := h.bill hs ha (.inl hk)
        have hp := passes_advance (hs.passes hv) hk hsep
        have hs₁ := (hs.passes hv).passes hp
        by_cases hnil : as = []
        · subst hnil
          rcases onePass_cases (hforward hs₁) hs₁ hsep hothers with
            ⟨-, rfl, -, hmissing⟩ | ⟨_, has, -⟩ | ⟨_, _, _, has, -⟩
          · refine ⟨v ++ [s₁.current], hv.append hp, hlead.append _, ?_⟩
            rw [hvisits, bill_append, hbill, hmissing, h.missing hs₁ hc hk, List.append_assoc,
              List.singleton_append, probes_between v [_], probes_pair]
            simp only [List.map_singleton, List.sum_singleton]
            abel
          · cases has
          · cases has
        · obtain ⟨u, hu, hlead', hothers⟩ := ih hs₁ hothers hnil
          refine ⟨v ++ ([s₁.current] ++ u), hv.append (hp.append hu), hlead.append _, ?_⟩
          rw [hvisits, bill_append, hbill, hothers, List.append_assoc, List.append_assoc,
            List.singleton_append, probes_between v (u ++ _), probes_cons (hlead'.append _),
            List.map_cons, List.sum_cons]
          abel

/-- **A list with items pays its visit, its items and the missing ones.** -/
lemma filled_bill (h : ItemBills item separator closer price) (hsep : separator ≠ .finish)
    (hs : s.Ordered) {name : String} {empty : Bool}
    (hlist : (separatedList name ⟨true, empty⟩ separator item).Pays s as s' m)
    (hc : s'.current.kind = closer) (hne : as ≠ []) :
    ∃ u, s.Passes u s' ∧ Leads u ∧
      m = {name} + ((as.map price).sum + probes (u ++ [s'.current])) := by
  obtain ⟨hgives, rfl⟩ := hlist
  have hrun := separatedList_run_of_gives hgives
  rw [Gives, hrun] at hgives
  obtain ⟨u, hu, hlead, hbill⟩ := onePass_bill h hsep hs hgives hc hne
  exact ⟨u, hu, hlead, by rw [hrun, bill_afterVisits, bill_singleton, hbill]⟩

/-- **A list in brackets may be empty**: then an item was missed behind the opening one. -/
lemma list_bill (h : ItemBills item separator closer price) (hsep : separator ≠ .finish)
    (hs : s.Ordered) {name : String}
    (hlist : (separatedList name ⟨true, true⟩ separator item).Pays s as s' m)
    (hc : s'.current.kind = closer)
    (hmissing : s.current.kind = closer → bill (item s).visits = probe (o, s.current)) :
    ∃ u, s.Passes u s' ∧ m = {name} + ((as.map price).sum + probes (o :: u ++ [s'.current])) := by
  by_cases hnil : as = []
  · subst hnil
    have hforward : ForwardFrom item s := fun w s₀ a s₁ hp ha => h.passes (hs.passes hp) ha
    obtain ⟨hgives, rfl⟩ := hlist
    rcases onePass_cases hforward hs hsep (gives_separatedList.mp hgives) with
      ⟨-, rfl, -, hvisits⟩ | ⟨_, has, -⟩ | ⟨_, _, _, has, -⟩
    · refine ⟨[], rfl, ?_⟩
      rw [separatedList_run, bill_afterVisits, bill_singleton, hvisits, hmissing hc]
      simp [probes_pair]
    · cases has
    · cases has
  · obtain ⟨u, hu, hlead, rfl⟩ := filled_bill h hsep hs hlist hc hnil
    exact ⟨u, hu, by rw [List.cons_append, probes_cons (hlead.append _)]⟩

/-- A list that may not be empty is not. -/
lemma ne_nil_of_gives_list {name : String}
    (h : (separatedList name ⟨true, false⟩ separator item).Gives s as s') : as ≠ [] := by
  obtain ⟨-, he, -⟩ | ⟨a, s₁, bs, rfl, -⟩ := gives_items.mp h
  · cases he
  · exact List.cons_ne_nil a bs

end Lists

end Rule

namespace Parser

open Rule

variable {limit : ℤ} {n : ℕ} {l : Level} {s s' s₁ : TokenStream} {e : Expr} {w : List Token}
  {m : Multiset String} {t o p : Token} {scope : Scope} {r : Rule Expr}

/-! ### Missing operands -/

lemma bill_missing_operand (hk : s.current.kind.startsOperand = false) :
    bill (operand scope s).visits = {"primary_expr", "array_literal"} := by
  have hliteral : ∀ kind, s.current.kind ≠ .literal kind := fun kind h => by
    rw [h] at hk
    cases hk
  have hname : s.current.kind ≠ .name := fun h => by
    rw [h] at hk
    cases hk
  have hgroup : s.current.kind ≠ .openParen := fun h => by
    rw [h] at hk
    cases hk
  have harray : s.current.kind ≠ .openBracket := fun h => by
    rw [h] at hk
    cases hk
  rw [operand, bill_visited, called_visits, operandChoice,
    choice_visits_of_unexpected (run_literal hliteral),
    choice_visits_of_unexpected (run_name hname), choice_visits_of_unexpected (run_group hgroup),
    choice_nil, alternative_visits]
  change {"primary_expr"} + bill (array scope s).visits = _
  rw [run_array harray]
  rfl

lemma literal_visits (s : TokenStream) : (literal s).visits = [] := by
  rw [literal, bind_current_run]
  cases hk : s.current.kind with
  | literal kind =>
      simp only [bind_run, spanned, stream, current, advance, Run.afterVisits, pure_run]
      cases Literal.overlong? ⟨kind, s.current.text.getD ""⟩ <;> rfl
  | _ => rfl

lemma name_visits (s : TokenStream) : (name s).visits = [] := by
  rw [name, bind_current_run]
  split <;> rfl

/-- A level whose first part is missing adds its own rule. -/
lemma bill_missing_level {α : Type} {r : Rule α} {f : α → Rule Expr} {name : String}
    (hr : r.Declines) (hs : s.Ordered) (hk : s.current.kind.startsOperand = false) :
    bill ((visit name >>= fun _ => r >>= f) s).visits = {name} + bill (r s).visits := by
  rw [bill_visited, bill_bind_of_refuses (hr s hs hk)]

lemma sign_visits (s : TokenStream) : (sign? s).visits = [] := by
  rw [sign?, bind_current_run]
  split <;> rfl

/-- Minus signs cost nothing. -/
lemma signs_bill (hs : s.Ordered) {signs : List Span} (h : (many sign?).Pays s signs s' m) :
    ∃ u, s.Passes u s' ∧ m = probes u := by
  have hnone : ∀ {s s' m}, sign?.Pays s none s' m → s' = s ∧ m = 0 := by
    intro s s' m h
    obtain ⟨hnone, rfl⟩ := (pays_iff_of_visits_nil (sign_visits _)).mp h
    exact ⟨(gives_sign?_none.mp hnone).2, rfl⟩
  have hsome : ∀ {s sign s' m}, TokenStream.Ordered s → sign?.Pays s (some sign) s' m →
      ∃ u, s.Passes u s' ∧ Leads u ∧ True ∧ m = 0 + probes u := by
    intro s sign s' m hs h
    obtain ⟨hsome, rfl⟩ := (pays_iff_of_visits_nil (sign_visits _)).mp h
    obtain ⟨hk, -, rfl⟩ := gives_sign?_some.mp hsome
    exact ⟨_, passes_advance hs hk (by simp), leads_of_kind hk rfl, trivial, rfl⟩
  obtain ⟨u, hu, -, -, rfl⟩ := many_bill hs hnone hsome h
  exact ⟨u, hu, by simp⟩

lemma bill_missing_signed (hs : s.Ordered) (hk : s.current.kind.startsOperand = false) :
    bill (signed scope s).visits = Level.rules .signed + {"array_literal"} := by
  have hminus : s.current.kind ≠ .arith .minus := fun h => by
    rw [h] at hk
    cases hk
  have hsigns : (many sign?).Gives s [] s := reads_signs.many_complete hs (List.forall_mem_nil _)
    rfl (.inl rfl) (gives_sign?_none.mpr ⟨hminus, rfl⟩)
  have hfree : bill (many sign? s).visits = 0 := by
    obtain ⟨u, hu, hbill⟩ := signs_bill hs hsigns.pays
    rw [hbill, hu.word_unique (show s.Passes [] s from rfl)]
    rfl
  have hsuffixed : (suffixed scope).Declines := (declines_operand scope).bind.visited
  rw [signed, bill_visited, bill_bind_of_pays ⟨hsigns, hfree⟩, zero_add,
    bill_bind_of_refuses (hsuffixed s hs hk), suffixed,
    bill_missing_level (declines_operand scope) hs hk, bill_missing_operand hk]
  rfl

/-- **An expression that is missing** is tried down to the operand. -/
lemma bill_missing (hs : s.Ordered) (hk : s.current.kind.startsOperand = false) :
    bill (expr limit n s).visits = (expressionRules : Multiset String) := by
  have hside : (side (Scope.ofRoom limit n)).Declines := fun s hs hk => by
    rw [side, Refuses, bind_current_run]
    exact (declines_comparison _).bind s hs hk
  have hbill : bill (side (Scope.ofRoom limit n) s).visits =
      bill (comparison (Scope.ofRoom limit n) s).visits := by
    rw [side, bind_current_run, bill_bind_of_refuses (declines_comparison _ s hs hk)]
  rw [expr_eq, assignment, bill_missing_level hside hs hk, hbill, comparison,
    bill_missing_level (declines_sum _) hs hk, sum,
    bill_missing_level (declines_product _) hs hk, product,
    bill_missing_level (declines_signed _) hs hk, bill_missing_signed hs hk]
  rfl

/-! ### Brackets -/

/-- **A rule pays** for the rules of its level, for the price of its tree and for the probes
of its tokens. -/
structure Bills (r : Rule Expr) (l : Level) : Prop where
  reads : ∀ {s e s'}, s.Ordered → r.Gives s e s' → ∃ w, s.Passes w s' ∧ Derives l w e
  bill : ∀ {s e s' m w}, s.Ordered → r.Pays s e s' m → s.Passes w s' →
    m = l.rules + e.price + probes w

/-- What a rule reads derives from its nonterminal. -/
lemma derives_of_gives {halt ready : Kind → Prop} (hr : r.Reads (Within True n l) halt ready)
    (hs : s.Ordered) (he : r.Gives s e s') : ∃ w, s.Passes w s' ∧ Derives l w e := by
  obtain ⟨w, hw, hd, -⟩ := hr.sound hs he
  exact ⟨w, hw, hd.1⟩

lemma pays_bracketed {α : Type} {opening closing : Kind} {inside : Rule Expr → Rule α}
    {p : α × Span} (hs : s.Ordered) (ho : opening ≠ .finish)
    (h : ((Scope.ofRoom limit n).bracketed opening closing inside).Pays s p s' m) :
    ∃ k s₁, n = k + 1 ∧ s.current.kind = opening ∧ s.Passes [s.current] s.advance ∧
      (inside (expr limit k)).Pays s.advance p.1 s₁ m ∧ s₁.current.kind = closing ∧
        s' = s₁.advance := by
  have hdescend : ∀ s, ((Scope.ofRoom limit n).descend s).visits = [] := fun s => by
    rw [Scope.descend]
    cases (Scope.ofRoom limit n).inner <;> rfl
  obtain ⟨hall, -⟩ := pays_spanned.mp h
  obtain ⟨o, s₀, m₀, m₁, hopen, hentered, rfl⟩ := pays_bind.mp hall
  obtain ⟨⟨hk, -, rfl⟩, rfl⟩ := pays_token.mp hopen
  obtain ⟨e, s₂, m₂, m₃, hinner, hfilled, rfl⟩ := pays_bind.mp hentered
  obtain ⟨hentry, rfl⟩ := (pays_iff_of_visits_nil (hdescend _)).mp hinner
  obtain ⟨hscope, rfl⟩ := gives_descend.mp hentry
  obtain ⟨k, rfl, rfl⟩ := ofRoom_inner.mp hscope
  obtain ⟨a, s₃, m₄, m₅, hinside, hclosed, rfl⟩ := pays_bind.mp hfilled
  obtain ⟨c, ha, hclose⟩ := pays_bind_pure.mp hclosed
  obtain ⟨⟨hck, -, rfl⟩, rfl⟩ := pays_token.mp hclose
  refine ⟨k, s₃, rfl, hk, passes_advance hs hk ho, ?_, hck, rfl⟩
  rw [zero_add, zero_add, add_zero, ha]
  exact hinside

/-- A row that is missing is tried with its first element. -/
lemma bill_missing_row (hs : s.Ordered) (hk : s.current.kind = .closeBracket) :
    bill (arrayRow (expr limit n) s).visits =
      (expressionRules : Multiset String) + {"array_row", "row_items"} := by
  have hstart : s.current.kind.startsOperand = false := by
    rw [hk]
    rfl
  have hexpr : (expr limit n).Refuses s (.unexpected s (.named "expression")) := by
    rw [expr_eq]
    exact declines_assignment _ s hs hstart
  have hitem : (itemWhere false (expr limit n)).Refuses s
      (.unexpected s (.named "expression")) := refuses_bind.mpr (.inl hexpr)
  rw [arrayRow, bill_visited, rowItems, separatedList, bill_visited, bill_bind_of_refuses hitem,
    itemWhere, if_neg (by simp), bill_bind_of_refuses hexpr, bill_missing hs hstart,
    ← add_assoc, add_comm]
  rfl

section Items

variable {k : ℕ} (h : Bills (expr limit k) .assignment)

include h

/-- The items of a list of expressions. -/
lemma itemBills_expr {closer : Kind} (hc : closer.endsItems = true) :
    ItemBills (expr limit k) .comma closer Expr.entry where
  passes := fun hs ha => (h.reads hs ha).imp fun _ hw => hw.1
  bill := by
    intro s e s₁ hs ha _
    obtain ⟨v, hv, hd⟩ := h.reads hs ha
    exact ⟨v, hv, hd.leads, by rw [h.bill hs ha.pays hv, probes_concat hd.leaves, Expr.entry]⟩
  missing := by
    intro s p hs hk hp
    rw [← hk] at hc
    rw [bill_missing hs (Kind.not_startsOperand hc)]
    simp [probe, missed, missedRow, hp, hc, Kind.beforeItem]

/-- The rows of an array. -/
lemma itemBills_row : ItemBills (arrayRow (expr limit k)) .semicolon .closeBracket
    fun row => {"array_row", "row_items"} + (row.map Expr.entry).sum where
  passes := by
    intro s row s₁ hs ha
    have hrow := (reads_items (inner_ofRoom limit (k + 1))).visited.sound hs ha
    exact hrow.imp fun _ hw => hw.1
  bill := by
    intro s row s₁ hs ha hk
    obtain ⟨m, hrow, hbill⟩ := pays_visited.mp ha.pays
    have hc : s₁.current.kind.endsItems = true := by
      rcases hk with hk | hk <;> rw [hk] <;> rfl
    obtain ⟨v, hv, hlead, rfl⟩ := filled_bill (itemBills_expr h hc) (by simp) hs hrow rfl
      (ne_nil_of_gives_list hrow.gives)
    refine ⟨v, hv, hlead, ?_⟩
    rw [hbill, ← add_assoc, ← add_assoc]
    rfl
  missing := by
    intro s p hs hk hp
    rw [bill_missing_row hs hk, probe, missed, missedRow, hp, hk]
    rfl

end Items

/-! ### Operands and suffixes -/

/-- The rule for expressions inside brackets, where `n` brackets fit, pays. -/
def InnerBills (limit : ℤ) (n : ℕ) : Prop :=
  ∀ k, n = k + 1 → Bills (expr limit k) .assignment

section Operands

variable (h : InnerBills limit n)

include h

lemma group_bill (hs : s.Ordered) (hg : (group (Scope.ofRoom limit n)).Pays s e s' m) :
    s.current.kind = .openParen ∧ ∃ w, s.Passes w s' ∧ m = e.price + probes w := by
  obtain ⟨⟨inner, span⟩, s₀, m₁, m₂, hbracket, hpure, rfl⟩ := pays_bind.mp hg
  obtain ⟨rfl, rfl, rfl⟩ := pays_pure.mp hpure
  obtain ⟨k, s₁, hk, ho, hopen, hinner, hc, rfl⟩ := pays_bracketed hs (by simp) hbracket
  obtain ⟨u, hu, hd⟩ := (h k hk).reads (hs.passes hopen) hinner.gives
  have hclose := passes_advance ((hs.passes hopen).passes hu) hc (by simp)
  refine ⟨ho, _, hopen.append (hu.append hclose), ?_⟩
  rw [(h k hk).bill (hs.passes hopen) hinner hu, List.singleton_append,
    probes_cons (hd.leads.append _), probes_concat hd.leaves, Expr.price_group, Expr.entry,
    add_zero]

lemma array_bill (hs : s.Ordered) (ha : (array (Scope.ofRoom limit n)).Pays s e s' m) :
    s.current.kind = .openBracket ∧ ∃ w, s.Passes w s' ∧ m = e.price + probes w := by
  obtain ⟨m', hvisited, rfl⟩ := pays_visited.mp ha
  obtain ⟨⟨rows, span⟩, s₀, m₁, m₂, hbracket, hpure, rfl⟩ := pays_bind.mp hvisited
  obtain ⟨rfl, rfl, rfl⟩ := pays_pure.mp hpure
  obtain ⟨k, s₁, hk, ho, hopen, hrows, hc, rfl⟩ := pays_bracketed hs (by simp) hbracket
  have hmissing : s.advance.current.kind = .closeBracket →
      bill (arrayRow (expr limit k) s.advance).visits = probe (s.current, s.advance.current) := by
    intro hk
    rw [bill_missing_row (hs.passes hopen) hk, probe, missed, missedRow, ho, hk]
    rfl
  obtain ⟨u, hu, rfl⟩ := list_bill (itemBills_row (h k hk)) (by simp) (hs.passes hopen) hrows hc
    hmissing
  have hclose := passes_advance ((hs.passes hopen).passes hu) hc (by simp)
  refine ⟨ho, _, hopen.append (hu.append hclose), ?_⟩
  rw [Expr.price_array, List.singleton_append, List.cons_append, add_zero, ← add_assoc,
    ← add_assoc]
  rfl

/-- The arguments of a call. -/
lemma call_bill (hs : s.Ordered) {p : List Expr × Span}
    (hp : (callSuffix (Scope.ofRoom limit n)).Pays s p s' m) :
    ∃ u, s.Passes u s' ∧ Leads u ∧ m = (Suffix.call p.1 p.2).price + probes u := by
  obtain ⟨m', hbracket, rfl⟩ := pays_visited.mp hp
  obtain ⟨k, s₁, hk, ho, hopen, hargs, hc, rfl⟩ := pays_bracketed hs (by simp) hbracket
  have hmissing : s.advance.current.kind = .closeParen →
      bill (expr limit k s.advance).visits = probe (s.current, s.advance.current) := by
    intro hk
    rw [bill_missing (hs.passes hopen) (by rw [hk]; rfl), probe, missed, missedRow, ho, hk]
    rfl
  obtain ⟨u, hu, rfl⟩ := list_bill (itemBills_expr (h k hk) rfl) (by simp) (hs.passes hopen) hargs
    hc hmissing
  have hclose := passes_advance ((hs.passes hopen).passes hu) hc (by simp)
  refine ⟨_, hopen.append (hu.append hclose), leads_of_kind ho rfl, ?_⟩
  rw [Suffix.price, List.singleton_append, List.cons_append, ← add_assoc, ← add_assoc]
  rfl

/-- Subscripts, of which there is one at least. -/
lemma index_bill (hs : s.Ordered) (hi : (indexSuffix (Scope.ofRoom limit n)).Pays s e s' m) :
    ∃ u, s.Passes u s' ∧ Leads u ∧ m = e.price + probes u := by
  obtain ⟨m', hvisited, rfl⟩ := pays_visited.mp hi
  obtain ⟨⟨args, span⟩, s₀, m₁, m₂, hbracket, hpure, rfl⟩ := pays_bind.mp hvisited
  obtain ⟨rfl, rfl, rfl⟩ := pays_pure.mp hpure
  obtain ⟨k, s₁, hk, ho, hopen, hargs, hc, rfl⟩ := pays_bracketed hs (by simp) hbracket
  obtain ⟨u, hu, hlead, rfl⟩ := filled_bill (itemBills_expr (h k hk) rfl) (by simp)
    (hs.passes hopen) hargs hc (ne_nil_of_gives_list hargs.gives)
  have hclose := passes_advance ((hs.passes hopen).passes hu) hc (by simp)
  refine ⟨_, hopen.append (hu.append hclose), leads_of_kind ho rfl, ?_⟩
  rw [Expr.price_index, List.singleton_append, probes_cons (hlead.append _), add_zero, ← add_assoc,
    ← add_assoc]
  rfl

omit h in
/-- A field costs nothing. -/
lemma field_bill (hs : s.Ordered) (hf : fieldSuffix.Pays s e s' m) :
    ∃ u, s.Passes u s' ∧ Leads u ∧ m = e.price + probes u := by
  obtain ⟨hd, ht, rfl, rfl⟩ := gives_fieldSuffix.mp hf.gives
  obtain ⟨⟨name, span⟩, s₀, m₁, m₂, hspanned, hpure, rfl⟩ := pays_bind.mp hf
  obtain ⟨-, -, rfl⟩ := pays_pure.mp hpure
  obtain ⟨htokens, -⟩ := pays_spanned.mp hspanned
  obtain ⟨dot, s₁, m₃, m₄, hdot, hname, rfl⟩ := pays_bind.mp htokens
  obtain ⟨-, rfl⟩ := pays_token.mp hdot
  obtain ⟨-, rfl⟩ := pays_token.mp hname
  have hp := passes_advance hs hd (by simp)
  have hp' := passes_advance (hs.passes hp) ht (by simp)
  have hname : Leads [s.advance.current] := leads_of_kind ht rfl
  refine ⟨_, hp.append hp', leads_of_kind hd rfl, ?_⟩
  rw [List.singleton_append, probes_cons hname, Expr.price_eq]
  rfl

lemma suffix_bill (hs : s.Ordered) {x : Suffix}
    (hx : (suffix? (Scope.ofRoom limit n)).Pays s (some x) s' m) :
    ∃ u, s.Passes u s' ∧ Leads u ∧ True ∧ m = x.price + probes u := by
  have hrun := pays_current.mp hx
  cases hk : s.current.kind with
  | openParen =>
      simp only [hk] at hrun
      obtain ⟨p, heq, hp⟩ := pays_bind_pure.mp hrun
      obtain ⟨u, hu, hlead, rfl⟩ := call_bill h hs hp
      exact ⟨u, hu, hlead, trivial, by rw [Option.some.inj heq]⟩
  | openBracket =>
      simp only [hk] at hrun
      obtain ⟨step, heq, hstep⟩ := pays_bind_pure.mp hrun
      obtain ⟨u, hu, hlead, rfl⟩ := index_bill h hs hstep
      exact ⟨u, hu, hlead, trivial, by rw [Option.some.inj heq, Suffix.price]⟩
  | dot =>
      simp only [hk] at hrun
      obtain ⟨step, heq, hstep⟩ := pays_bind_pure.mp hrun
      obtain ⟨u, hu, hlead, rfl⟩ := field_bill hs hstep
      exact ⟨u, hu, hlead, trivial, by rw [Option.some.inj heq, Suffix.price]⟩
  | _ =>
      simp only [hk, pays_pure, reduceCtorEq, false_and] at hrun

omit h in
lemma no_suffix_bill (hx : (suffix? scope).Pays s none s' m) : s' = s ∧ m = 0 := by
  obtain ⟨hk, rfl⟩ := gives_suffix?_none.mp hx.gives
  have hrun := pays_current.mp hx
  cases hcur : s'.current.kind with
  | openParen | openBracket | dot =>
      rw [hcur] at hk
      cases hk
  | _ =>
      simp only [hcur, pays_pure] at hrun
      exact ⟨rfl, hrun.2.2⟩

/-- **Operands.** -/
lemma bills_operand : Bills (operand (Scope.ofRoom limit n)) .operand where
  reads := derives_of_gives (reads_operand (inner_ofRoom limit n))
  bill := by
    intro s e s' m w hs he hw
    obtain ⟨m', hvisited, rfl⟩ := pays_visited.mp he
    have hchoice := pays_called.mp hvisited
    suffices h : ∃ w, s.Passes w s' ∧ m' = e.price + probes w by
      obtain ⟨v, hv, rfl⟩ := h
      rw [hw.word_unique hv, ← add_assoc]
      rfl
    have hpassed : ∀ {kind}, s.current.kind = kind → kind ≠ .finish →
        s.Passes [s.current] s.advance := fun hk hne => passes_advance hs hk hne
    rcases pays_choice_cons hchoice with hl | ⟨-, m₁, -, hchoice₁, rfl⟩
    · obtain ⟨kind, hk, -, rfl, rfl⟩ := gives_literal.mp hl.gives
      exact ⟨_, hpassed hk (by simp), by rw [← hl.bill, literal_visits, Expr.price_eq]; rfl⟩
    rw [literal_visits, bill_nil, zero_add]
    rcases pays_choice_cons hchoice₁ with hn | ⟨-, m₂, -, hchoice₂, rfl⟩
    · obtain ⟨hk, rfl, rfl⟩ := gives_name.mp hn.gives
      exact ⟨_, hpassed hk (by simp), by rw [← hn.bill, name_visits, Expr.price_eq]; rfl⟩
    rw [name_visits, bill_nil, zero_add]
    rcases pays_choice_cons hchoice₂ with hg | ⟨-, m₃, -, hchoice₃, rfl⟩
    · exact (group_bill h hs hg).2
    · obtain ⟨hk, ha⟩ := array_bill h hs (pays_alternative.mp hchoice₃)
      change ∃ w, s.Passes w s' ∧ bill (group (Scope.ofRoom limit n) s).visits + m₃ = _
      rw [run_group (by simp [hk]), bill_nil, zero_add]
      exact ha

/-- **Operands with suffixes.** -/
lemma bills_suffixed : Bills (suffixed (Scope.ofRoom limit n)) .suffixed where
  reads := derives_of_gives (reads_suffixed (inner_ofRoom limit n))
  bill := by
    intro s e s' m w hs he hw
    obtain ⟨m', hvisited, rfl⟩ := pays_visited.mp he
    obtain ⟨base, s₁, m₁, m₂, hbase, hrest, rfl⟩ := pays_bind.mp hvisited
    obtain ⟨suffixes, rfl, hmany⟩ := pays_bind_pure.mp hrest
    obtain ⟨v, hv, -⟩ := (bills_operand h).reads hs hbase.gives
    obtain ⟨u, hu, hlead, -, rfl⟩ := many_bill (hs.passes hv) no_suffix_bill
      (fun hs hx => suffix_bill h hs hx) hmany
    rw [hw.word_unique (hv.append hu), (bills_operand h).bill hs hbase hv, probes_append hlead,
      Suffix.price_attach, List.map_nil, List.sum_nil, add_zero]
    have hrules : Level.rules .suffixed = {"postfix_expr"} + Level.rules .operand := rfl
    rw [hrules]
    abel

/-- **Minus signs.** -/
lemma bills_signed : Bills (signed (Scope.ofRoom limit n)) .signed where
  reads := derives_of_gives (reads_signed (inner_ofRoom limit n))
  bill := by
    intro s e s' m w hs he hw
    obtain ⟨m', hvisited, rfl⟩ := pays_visited.mp he
    obtain ⟨signs, s₁, m₁, m₂, hsigns, hrest, rfl⟩ := pays_bind.mp hvisited
    obtain ⟨base, rfl, hbase⟩ := pays_bind_pure.mp hrest
    obtain ⟨u, hu, rfl⟩ := signs_bill hs hsigns
    obtain ⟨v, hv, hd⟩ := (bills_suffixed h).reads (hs.passes hu) hbase.gives
    rw [hw.word_unique (hu.append hv), (bills_suffixed h).bill (hs.passes hu) hbase hv,
      probes_append (.inr hd.leads), Expr.price_signs]
    have hrules : Level.rules .signed = {"unary_expr"} + Level.rules .suffixed := rfl
    rw [hrules]
    abel

end Operands

/-! ### Operators -/

section Chain

variable {ω : Type} {op? : Kind → Option ω} {k : Expr → List (ω × Expr) → Expr}

/-- **A chain** pays for its operands. -/
lemma chain_bill (h : Bills r l) (hs : s.Ordered)
    (hop : ∀ kind op, op? kind = some op → kind.endsItems = false ∧ kind ≠ .finish)
    (hprice : ∀ first links, (∀ x ∈ links, ∃ kind, op? kind = some x.1) →
      (k first links).price = first.price + (links.map fun x => l.rules + x.2.price).sum)
    (he : (do
      let first ← r
      let links ← many (link? op? r)
      return k first links : Rule Expr).Pays s e s' m) (hw : s.Passes w s') :
    m = l.rules + e.price + probes w := by
  have hnone : ∀ {s s' m}, (link? op? r).Pays s none s' m → s' = s ∧ m = 0 := by
    intro s s' m hx
    obtain ⟨hno, rfl⟩ := (gives_link_none op? r).mp hx.gives
    have hrun := pays_current.mp hx
    simp only [hno, pays_pure] at hrun
    exact ⟨rfl, hrun.2.2⟩
  have hsome : ∀ {s x s' m}, TokenStream.Ordered s → (link? op? r).Pays s (some x) s' m →
      ∃ u, s.Passes u s' ∧ Leads u ∧ (∃ kind, op? kind = some x.1) ∧
        m = l.rules + x.2.price + probes u := by
    intro s x s' m hs hx
    obtain ⟨hsome, -⟩ := gives_link_some.mp hx.gives
    obtain ⟨hends, hfinish⟩ := hop _ _ hsome
    have hp := passes_advance hs rfl hfinish
    have hrun := pays_current.mp hx
    simp only [hsome] at hrun
    obtain ⟨_, s₁, m₁, m₂, hadvance, hrest, rfl⟩ := pays_bind.mp hrun
    obtain ⟨rfl, rfl⟩ := pays_advance.mp hadvance
    obtain ⟨right, heq, hright⟩ := pays_bind_pure.mp hrest
    obtain ⟨v, hv, hd⟩ := h.reads (hs.passes hp) hright.gives
    refine ⟨_, hp.append hv, ⟨_, _, rfl, hends⟩, ⟨_, hsome⟩, ?_⟩
    rw [h.bill (hs.passes hp) hright hv, Option.some.inj heq, List.singleton_append,
      probes_cons hd.leads, zero_add]
  obtain ⟨first, s₁, m₁, m₂, hfirst, hrest, rfl⟩ := pays_bind.mp he
  obtain ⟨links, rfl, hlinks⟩ := pays_bind_pure.mp hrest
  obtain ⟨v, hv, -⟩ := h.reads hs hfirst.gives
  obtain ⟨u, hu, hlead, hops, rfl⟩ := many_bill (hs.passes hv) hnone hsome hlinks
  rw [hw.word_unique (hv.append hu), h.bill hs hfirst hv, probes_append hlead,
    hprice first links hops]
  abel

/-- A chain of arithmetic operators, each of which is paid for with its right operand. -/
lemma arith_bill {op? : Kind → Option ArithOp} (h : Bills r l) (hs : s.Ordered)
    (hop : ∀ kind op, op? kind = some op → kind = .arith op ∧ op.operandLevel = l)
    (he : (do
      let first ← r
      let links ← many (link? op? r)
      return links.foldl Expr.arithWith first : Rule Expr).Pays s e s' m) (hw : s.Passes w s') :
    m = l.rules + e.price + probes w := by
  refine chain_bill h hs (fun kind op hk => ?_) (fun first links hlinks => ?_) he hw
  · rw [(hop kind op hk).1]
    exact ⟨rfl, by simp⟩
  · refine Expr.price_chain links fun x hx => ?_
    obtain ⟨kind, hkind⟩ := hlinks x hx
    exact (hop kind x.1 hkind).2

end Chain

section Operators

variable (h : InnerBills limit n)

include h

/-- **Products.** -/
lemma bills_product : Bills (product (Scope.ofRoom limit n)) .product where
  reads := derives_of_gives (reads_product (inner_ofRoom limit n))
  bill := by
    intro s e s' m w hs he hw
    obtain ⟨m', hvisited, rfl⟩ := pays_visited.mp he
    have hop : ∀ kind op, Kind.productOp? kind = some op →
        kind = .arith op ∧ op.operandLevel = .signed := fun kind op h => by
      obtain ⟨hk, h⟩ := (Kind.productOp?_eq_some_iff kind op).mp h
      rcases h with rfl | rfl <;> exact ⟨hk, rfl⟩
    rw [arith_bill (bills_signed h) hs hop hvisited hw, ← add_assoc, ← add_assoc]
    rfl

/-- **Sums.** -/
lemma bills_sum : Bills (sum (Scope.ofRoom limit n)) .sum where
  reads := derives_of_gives (reads_sum (inner_ofRoom limit n))
  bill := by
    intro s e s' m w hs he hw
    obtain ⟨m', hvisited, rfl⟩ := pays_visited.mp he
    have hop : ∀ kind op, Kind.sumOp? kind = some op →
        kind = .arith op ∧ op.operandLevel = .product := fun kind op h => by
      obtain ⟨hk, h⟩ := (Kind.sumOp?_eq_some_iff kind op).mp h
      rcases h with rfl | rfl <;> exact ⟨hk, rfl⟩
    rw [arith_bill (bills_product h) hs hop hvisited hw, ← add_assoc, ← add_assoc]
    rfl

/-- **Comparisons.** -/
lemma bills_comparison : Bills (comparison (Scope.ofRoom limit n)) .comparison where
  reads := derives_of_gives (reads_comparison (inner_ofRoom limit n))
  bill := by
    intro s e s' m w hs he hw
    obtain ⟨m', hvisited, rfl⟩ := pays_visited.mp he
    have hop : ∀ kind op, Kind.compareOp? kind = some op →
        kind.endsItems = false ∧ kind ≠ .finish := fun kind op h => by
      rw [(Kind.compareOp?_eq_some_iff kind op).mp h]
      exact ⟨rfl, by simp⟩
    rw [chain_bill (bills_sum h) hs hop (fun first links _ => Expr.price_compareWith links)
      hvisited hw, ← add_assoc, ← add_assoc]
    rfl

/-! ### Assignments -/

omit h in
lemma pays_side {side' : Token × Expr} (hx : (side scope).Pays s side' s' m) :
    (comparison scope).Pays s side'.2 s' m := by
  obtain ⟨e, rfl, he⟩ := pays_bind_pure.mp (pays_current.mp hx)
  exact he

/-- A further side pays for the rules of a comparison. -/
lemma furtherSide_bill (hs : s.Ordered) {before next : Token × Expr}
    (hx : (furtherSide (Scope.ofRoom limit n) before).Pays s (some (e, next)) s' m) :
    ∃ u, s.Passes u s' ∧ Leads u ∧ True ∧
      m = Level.rules .comparison + e.price + probes u := by
  obtain ⟨hk, htarget, rfl, -⟩ := gives_furtherSide_some.mp hx.gives
  have hp := passes_advance hs hk (by simp)
  have hrun := pays_current.mp hx
  simp only [hk, (isAssignable_iff _).mpr htarget, if_true] at hrun
  obtain ⟨_, s₁, m₁, m₂, hadvance, hrest, rfl⟩ := pays_bind.mp hrun
  obtain ⟨rfl, rfl⟩ := pays_advance.mp hadvance
  obtain ⟨side', heq, hside⟩ := pays_bind_pure.mp hrest
  obtain rfl : next = side' := (Prod.mk.inj (Option.some.inj heq)).2
  have hnext := pays_side hside
  obtain ⟨v, hv, hd⟩ := (bills_comparison h).reads (hs.passes hp) hnext.gives
  refine ⟨_, hp.append hv, leads_of_kind hk rfl, trivial, ?_⟩
  rw [(bills_comparison h).bill (hs.passes hp) hnext hv, List.singleton_append,
    probes_cons hd.leads, zero_add]

omit h in
lemma no_furtherSide_bill {before : Token × Expr}
    (hx : (furtherSide scope before).Pays s none s' m) : s' = s ∧ m = 0 := by
  obtain ⟨hk, rfl⟩ := gives_furtherSide_none.mp hx.gives
  have hrun := pays_current.mp hx
  simp only [hk, if_false, pays_pure] at hrun
  exact ⟨rfl, hrun.2.2⟩

/-- **Assignments.** -/
lemma bills_assignment : Bills (assignment (Scope.ofRoom limit n)) .assignment where
  reads := derives_of_gives (reads_assignment (inner_ofRoom limit n))
  bill := by
    intro s e s' m w hs he hw
    obtain ⟨m', hvisited, rfl⟩ := pays_visited.mp he
    obtain ⟨first, s₁, m₁, m₂, hfirst, hrest, rfl⟩ := pays_bind.mp hvisited
    obtain ⟨others, rfl, hothers⟩ := pays_bind_pure.mp hrest
    have hfirst := pays_side hfirst
    obtain ⟨v, hv, -⟩ := (bills_comparison h).reads hs hfirst.gives
    obtain ⟨u, hu, hlead, -, rfl⟩ := collect_bill (hs.passes hv) no_furtherSide_bill
      (fun hs hx => furtherSide_bill h hs hx) hothers
    have hrules : Level.rules .assignment = {"assign_expr"} + Level.rules .comparison := rfl
    rw [hw.word_unique (hv.append hu), (bills_comparison h).bill hs hfirst hv,
      probes_append hlead, Expr.price_assignAll, hrules]
    abel

end Operators

/-- **The rule for expressions pays** for the rules of its level, for the price of its tree
and for the probes of its tokens, whatever the room. -/
theorem bills_expr (limit : ℤ) (n : ℕ) : Bills (expr limit n) .assignment :=
  expr_induction (P := fun _ r => Bills r .assignment) limit (fun _ ih => bills_assignment ih) n

end Parser

end ArrayExpr
