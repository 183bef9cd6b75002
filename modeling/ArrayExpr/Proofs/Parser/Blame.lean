/-
The rules of the parser fail where the reference machine stops.

* `Parser.Stuck`: a state in which no token of a kind is taken;
* `Parser.Blames`: in front of an expression a rule fails only where the
  machine, started there, comes to a token that offends;
* `Parser.ChainSteps`, `ChainSteps.links`, `steps_sides`: operands with operators
  between them, and sides of an assignment, take the machine to the next one;
* `Parser.blames_operand`, ..., `Parser.blames_assignment`: every rule does so,
  if the rule for expressions inside brackets does;
* `Parser.blames_expr`: the rule for expressions does so, whatever the room.
-/
import ArrayExpr.Proofs.Parser.Fault

namespace ArrayExpr

namespace Parser

open Rule Grammar Reference

variable {limit : ℤ} {cap m n : ℕ} {h v w : List Token} {s s' s₁ : TokenStream}
  {q q₀ : State} {g : Failure} {kind : Kind} {p : Pending} {br : List Bracket} {x : Outline}

/-! ### States that are stuck -/

/-- The text may not end in the state, and no token of the kind is taken. -/
structure Stuck (q : State) (kind : Kind) : Prop where
  sentence : q.sentence? = none
  step : ∀ t, t.kind = kind → stepUsual q t = none

lemma Stuck.offends (hq : Stuck q s.current.kind) (hg : g.StopsAt s)
    (hask : s.atEnd = true → g.Asks h q) : Offends cap h q s g :=
  .stops hq.sentence (fun t ht => hq.step t (by rw [TokenStream.current_of_peek ht])) hg hask

lemma Stuck.faults (hq : Stuck q s₁.current.kind) (hg : g.StopsAt s₁)
    (hask : s₁.atEnd = true → g.Asks (h ++ w) q) (hp : s.Passes w s₁)
    (hs : Steps True cap q₀ w q) : Faults cap h s q₀ g :=
  (Faults.here (hq.offends hg hask)).after hp hs

/-- Behind an expression the machine ends an item. -/
lemma step_hold_of_stops {t : Token} (ht : Stops .assignment t.kind) (x : Outline) (p : Pending)
    (br : List Bracket) : stepUsual (.hold x p br) t = endItem t.kind (p.whole x) br := by
  obtain ⟨⟨⟨⟨hs, hp⟩, hsum⟩, hc⟩, ha⟩ := ht
  rw [stepUsual_hold, stepHold, Token.usual_kind]
  rcases hk : t.kind with _ | _ | op | _ | _ | _ | _ | _ | _ | _ | _ | _ | _ <;>
    rw [hk] at hs hp hsum hc ha
  case arith => cases op <;> simp_all [Kind.productOp?, Kind.sumOp?]
  all_goals simp_all [Kind.startsSuffix, Kind.compareOp?]

lemma stuck_hold {b : Bracket} (hk : Stops .assignment kind)
    (hb : ∀ o, endItem kind o (b :: br) = none) : Stuck (.hold x p (b :: br)) kind :=
  ⟨rfl, fun t ht => by rw [step_hold_of_stops (ht ▸ hk), ht, hb]⟩

lemma stuck_want (hk : kind.startsOperand = false) (hb : endEmpty kind br = none) :
    Stuck (.want .nothing br) kind :=
  ⟨rfl, fun t ht => by rw [step_want_of_not_starts (ht ▸ hk), ht, hb, ite_self]⟩

/-! ### Brackets -/

/-- How brackets are refused: there is no room for them, what stands inside is
refused, or the closing token is missing. -/
lemma refuses_bracketed_cases {α : Type} {opening closing : Kind} {inside : Rule Expr → Rule α}
    (hk : s.current.kind = opening)
    (hg : ((Scope.ofRoom limit n).bracketed opening closing inside).Refuses s g) :
    (n = 0 ∧ g = .ofKind .nestingTooDeep s.advance (.nesting limit)) ∨
      ∃ m, n = m + 1 ∧ ((inside (expr limit m)).Refuses s.advance g ∨
        ∃ a s₁, (inside (expr limit m)).Gives s.advance a s₁ ∧ s₁.current.kind ≠ closing ∧
          g = if s₁.atEnd then .ofKind .unterminatedBracket s₁ (.closing closing.describe s.current)
            else .unexpected s₁ (.named closing.describe)) := by
  rw [Scope.bracketed, refuses_spanned] at hg
  simp only [refuses_bind, gives_token, not_refuses_pure, and_false, exists_false,
    or_false] at hg
  rcases hg with hg | ⟨o, s₁, ⟨-, rfl, rfl⟩, hg | ⟨r, s₂, hr, hg | ⟨a, s₃, ha, hg⟩⟩⟩
  · exact absurd hk (refuses_token hg).1
  · cases n with
    | zero =>
        rw [Scope.descend, Scope.ofRoom, refuses_fail] at hg
        exact Or.inl ⟨rfl, hg⟩
    | succ m => exact absurd hg not_refuses_pure
  · obtain ⟨hinner, rfl⟩ := gives_descend.mp hr
    obtain ⟨m, rfl, rfl⟩ := ofRoom_inner.mp hinner
    exact Or.inr ⟨m, rfl, Or.inl hg⟩
  · obtain ⟨hinner, rfl⟩ := gives_descend.mp hr
    obtain ⟨m, rfl, rfl⟩ := ofRoom_inner.mp hinner
    exact Or.inr ⟨m, rfl, Or.inr ⟨a, s₃, ha, (refuses_token_closing hg).1,
      refuses_token_closer hg⟩⟩

/-- The closing token is missing where a state is stuck that would take it. Balanced
tokens have led there from behind the opening token. -/
structure ClosingMissing (cap : ℕ) (q : State) (s s₁ : TokenStream) (w : List Token) (q₁ : State) :
    Prop where
  passes : s.Passes w s₁
  steps : Steps True cap q w q₁
  stuck : Stuck q₁ s₁.current.kind
  closable : q₁.Closable
  balanced : Balanced w

/-- **Brackets fail where the machine does**, if what stands inside does and
the machine is stuck where the closing token is missing. -/
lemma faults_bracketed {α : Type} {opening closing : Kind} {inside : Rule Expr → Rule α}
    (ho : opening.isOpening = true) (hs : s.Ordered) (hk : s.current.kind = opening)
    (hroom : q.brackets.length + n = cap) (hstep : stepUsual q s.current = some q₀)
    (hinside : ∀ m g, n = m + 1 → (inside (expr limit m)).Refuses s.advance g →
      Faults cap (h ++ [s.current]) s.advance q₀ g)
    (hclosing : ∀ m a s₁, n = m + 1 → (inside (expr limit m)).Gives s.advance a s₁ →
      s₁.current.kind ≠ closing → ∃ w q₁, ClosingMissing cap q₀ s.advance s₁ w q₁)
    (hg : ((Scope.ofRoom limit n).bracketed opening closing inside).Refuses s g)
    (hpair : closing = opening.closer) : Faults cap h s q g := by
  have hne : opening ≠ .finish := fun hf => by simp [hf, Kind.isOpening] at ho
  have hp := passes_advance hs hk hne
  have hko : s.current.kind.isOpening = true := by rw [hk]; exact ho
  have hadmits : n ≠ 0 → Admits True cap q s.current := fun hn =>
    admits_opening hko fun _ => by omega
  rcases refuses_bracketed_cases hk hg with ⟨rfl, rfl⟩ | ⟨m, rfl, hg | ⟨a, s₁, ha, hc, hg⟩⟩
  · exact .here (.depth hp.1 hko (by simp [hstep]) (by omega) rfl rfl)
  · exact (hinside m g rfl hg).after hp (steps_one (hadmits (by simp)) hstep)
  · obtain ⟨w, q₁, hmissing⟩ := hclosing m a s₁ rfl ha hc
    have hopen : unclosed (h ++ [s.current] ++ w) = s.current :: unclosed h := by
      rw [List.append_assoc, List.singleton_append, unclosed_bracket hko hmissing.balanced]
    have hask : s₁.atEnd = true → g.Asks (h ++ [s.current] ++ w) q₁ := fun hend => by
      rw [hg, if_pos hend, hpair, ← hk]
      exact Failure.closing_asks hmissing.closable hopen
    refine Faults.after hp (steps_one (hadmits (by simp)) hstep) ?_
    refine hmissing.stuck.faults ?_ hask hmissing.passes hmissing.steps
    rw [hg]
    exact Failure.closing_stopsAt s₁ _ _

/-! ### Expressions -/

/-- An expression may begin with the token; below minus signs with no other
one. -/
def Begins (l : Level) (kind : Kind) : Prop :=
  kind.startsOperand = true ∧ (l = .operand ∨ l = .suffixed → kind ≠ .arith .minus)

/-- In front of an expression a rule fails only where the machine, started
there, comes to a token that offends; the brackets around leave room for `n`
more. -/
def Blames (cap n : ℕ) (l : Level) (r : Rule Expr) : Prop :=
  ∀ ⦃h s g p br⦄, s.Ordered → Explains h (.want p br) → br.length + n = cap → Clean l p →
    Begins l s.current.kind → r.Refuses s g → Faults cap h s (.want p br) g

/-- The rule for expressions inside brackets does so, where `n` brackets fit. -/
def BlamesInside (limit : ℤ) (cap n : ℕ) : Prop :=
  ∀ m, n = m + 1 → Blames cap m .assignment (expr limit m)

/-- Where an operator waits for its right side, what is missing is at fault as
well. -/
lemma Blames.faults {l : Level} {r : Rule Expr} (hb : Blames cap n l r) (hd : r.Declines)
    (hs : s.Ordered) (hexp : Explains h (.want p br)) (hroom : br.length + n = cap)
    (hclean : Clean l p) (hp : p.isNothing = false)
    (hm : l = .operand ∨ l = .suffixed → s.current.kind ≠ .arith .minus) (hg : r.Refuses s g) :
    Faults cap h s (.want p br) g := by
  by_cases hk : s.current.kind.startsOperand = true
  · exact hb hs hexp hroom hclean ⟨hk, hm⟩ hg
  · rw [Bool.not_eq_true] at hk
    rw [hg.unique (hd s hs hk)]
    exact .here (offends_missing hp hk _)

/-- An expression takes the machine along. -/
lemma steps_of_gives_expr {e : Expr} (hs : s.Ordered) (hroom : br.length + m ≤ cap)
    (hg : (expr limit m).Gives s e s') :
    ∃ w x p, s.Passes w s' ∧ Balanced w ∧ Steps True cap (.want .nothing br) w (.hold x p br) ∧
      Stops .assignment s'.current.kind := by
  obtain ⟨w, hw, hG, hk⟩ := (reads_expr limit m).sound hs hg
  obtain ⟨x, p, hsteps, -⟩ := (runs_of_derives hG.1 hG.2).whole br fun _ => hroom
  exact ⟨w, x, p, hw, hG.balanced, hsteps, hk⟩

lemma declines_expr (limit : ℤ) (m : ℕ) : (expr limit m).Declines :=
  (inner_ofRoom limit (m + 1)).declines m rfl

/-! ### Items in brackets -/

section Items

variable {mk : List Outline → Bracket} {items : List Outline} {empty : Bool}

/-- An item is wanted in a bracket. -/
def itemBegins (mk : List Outline → Bracket) (br : List Bracket) (items : List Outline) : State :=
  .want .nothing (mk items :: br)

/-- An item is complete in front of a token. -/
def ItemEnds (mk : List Outline → Bracket) (br : List Bracket) (items : List Outline) (q : State)
    (kind : Kind) : Prop :=
  ∃ x p, q = .hold x p (mk items :: br) ∧ Stops .assignment kind

/-- Where the machine stands after items with commas between them. -/
def ItemsEnd (mk : List Outline → Bracket) (br : List Bracket) (empty : Bool) (q : State)
    (kind : Kind) : Prop :=
  ListEnds .comma (itemBegins mk br) (ItemEnds mk br) (· ≠ []) empty [] q kind

/-- A comma leads to the next item of a bracket. -/
def TakesComma (mk : List Outline → Bracket) (br : List Bracket) : Prop :=
  ∀ o items, endItem .comma o (mk items :: br) = some (.want .nothing (mk (o :: items) :: br))

/-- Expressions with commas between them take the machine along. -/
lemma itemSteps_expr (hcomma : TakesComma mk br) (hroom : br.length + (m + 1) = cap)
    (hb : Blames cap m .assignment (expr limit m)) :
    ItemSteps cap (expr limit m) .comma (itemBegins mk br) (ItemEnds mk br) (· ≠ []) where
  declines := declines_expr limit m
  wants := fun k => ⟨_, _, rfl⟩
  passes := fun hs hg => by
    obtain ⟨w, hw, -⟩ := (reads_expr limit m).sound hs hg
    exact ⟨w, hw⟩
  gives := fun {h s k a s'} hs _ hg => by
    have hroom' : (mk k :: br).length + m ≤ cap := by
      rw [List.length_cons]
      omega
    obtain ⟨w, x, p, hw, -, hsteps, hk⟩ := steps_of_gives_expr hs hroom' hg
    exact ⟨w, _, hw, hsteps, x, p, rfl, hk⟩
  faults := fun hs hexp hk hg =>
    hb hs hexp (by rw [List.length_cons]; omega) ⟨rfl, rfl, rfl, rfl⟩ ⟨hk, by simp⟩ hg
  separates := by
    rintro k q t ⟨x, p, rfl, hk⟩ ht
    have hends : EndsItem t.kind := Or.inr (Or.inr (Or.inl ht))
    refine ⟨p.whole x :: k, hends.admits, ?_, by simp⟩
    rw [hends.step_hold, ht, hcomma, itemBegins]

/-- After items the machine is stuck where the bracket may not end. -/
lemma ItemsEnd.stuck (hq : ItemsEnd mk br empty q kind)
    (hitem : ∀ o items, kind ≠ .comma → endItem kind o (mk items :: br) = none)
    (hempty : ∀ items, endEmpty kind (mk items :: br) = none) : Stuck q kind := by
  rcases hq with ⟨items, ⟨x, p, rfl, hk⟩, hne⟩ | ⟨items, rfl, hk, -⟩
  · exact stuck_hold hk fun o => hitem o items hne
  · exact stuck_want hk (hempty items)

/-- After items the bracket may be closed, if it may end where they end. -/
lemma ItemsEnd.closable {closing : Kind} (hq : ItemsEnd mk br empty q kind)
    (hc : closing.isClosing = true)
    (hends : ∀ items, items ≠ [] ∨ empty = true → endEmpty closing (mk items :: br) ≠ none) :
    q.Closable := by
  rcases hq with ⟨items, ⟨x, p, rfl, hk⟩, hne⟩ | ⟨items, rfl, hk, hfull⟩
  · exact closable_hold x p _ br
  · exact closable_want_iff.mpr ⟨rfl, closing, hc, hends items (hfull.imp_right And.left)⟩

/-- Lists of balanced words are balanced. -/
lemma balanced_listOf {π α : Type} {separator : Kind} {words : π → List Token} {value : π → α}
    {G : π → Prop} {as : List α} (hsep : separator.isOpening = false ∧ separator.isClosing = false)
    (hG : ∀ p, G p → Balanced (words p)) (hw : ListOf separator empty words value G w as) :
    Balanced w := by
  obtain ⟨ps, hps, -, hlist | ⟨-, -, rfl⟩⟩ := hw
  · refine hlist.balanced hsep fun v hv => ?_
    obtain ⟨p, hp, rfl⟩ := List.mem_map.mp hv
    exact hG p (hps p hp)
  · exact Balanced.nil

lemma balanced_items {es : List Expr} (hw : Items empty m w es) : Balanced w :=
  balanced_listOf ⟨rfl, rfl⟩ (fun _ hp => hp.balanced) hw

/-- **Items in brackets fail where the machine does.** -/
lemma faults_items (mk : List Outline → Bracket) {opening closing : Kind} {name : String}
    (hb : BlamesInside limit cap n) (ho : opening.isOpening = true) (hs : s.Ordered)
    (hexp : Explains h q) (hk : s.current.kind = opening) (hq : q.brackets = br)
    (hroom : br.length + n = cap)
    (hstep : stepUsual q s.current = some (itemBegins mk br [])) (hcomma : TakesComma mk br)
    (hitem : ∀ kind o items, kind ≠ closing → kind ≠ .comma →
      endItem kind o (mk items :: br) = none)
    (hempty : ∀ kind items, kind ≠ closing → endEmpty kind (mk items :: br) = none)
    (hends : ∀ items, items ≠ [] ∨ empty = true → endEmpty closing (mk items :: br) ≠ none)
    (hfirst : empty = false → ∀ kind, endEmpty kind (mk [] :: br) = none)
    (hg : ((Scope.ofRoom limit n).bracketed opening closing fun expr =>
      separatedList name ⟨true, empty⟩ .comma expr).Refuses s g)
    (hpair : closing = opening.closer) : Faults cap h s q g := by
  have hp := passes_advance hs hk fun hf => by simp [hf, Kind.isOpening] at ho
  have hs' := hs.passes hp
  have hexp' := hexp.step hstep
  refine faults_bracketed ho hs hk (by rw [hq]; exact hroom) hstep ?_ ?_ hg hpair
  · rintro m g rfl hg
    have hi := itemSteps_expr hcomma hroom (hb m rfl)
    by_cases hstart : empty = true ∨ s.advance.current.kind.startsOperand = true
    · exact hi.faults_list (by simp) hs' hexp' hstart hg
    · rw [not_or, Bool.not_eq_true, Bool.not_eq_true] at hstart
      obtain ⟨rfl, hstart⟩ := hstart
      rw [hg.unique ((declines_expr limit m).list s.advance hs' hstart)]
      exact .here (offends_item hstart (hfirst rfl) _)
  · rintro m a s₁ rfl hg hc
    have hi := itemSteps_expr hcomma hroom (hb m rfl)
    obtain ⟨w, q₁, hw, hsteps, hlist⟩ := hi.gives_list (by simp) hs' hexp' hg
    obtain ⟨w', hw', hitems, -⟩ := (reads_items (inner_ofRoom limit (m + 1))).sound hs' hg
    obtain rfl := hw.word_unique hw'
    exact ⟨w, q₁, hw, hsteps,
      ItemsEnd.stuck hlist (fun o items hne => hitem _ o items hc hne) fun items =>
        hempty _ items hc,
      ItemsEnd.closable hlist (hpair ▸ Kind.isClosing_closer opening) hends,
      balanced_items hitems⟩

end Items

/-! ### Rows -/

section Rows

variable {outer : Pending} {rows : List Outline}

/-- A row is wanted in an array. -/
def rowBegins (outer : Pending) (br : List Bracket) (rows : List Outline) : State :=
  itemBegins (.array outer rows) br []

/-- A row is complete in front of a token. -/
def RowEnds (outer : Pending) (br : List Bracket) (rows : List Outline) : State → Kind → Prop :=
  ItemsEnd (.array outer rows) br false

lemma takesComma_array (outer : Pending) (rows : List Outline) (br : List Bracket) :
    TakesComma (.array outer rows) br := fun o items => by simp [endItem]

/-- Rows with semicolons between them take the machine along. -/
lemma itemSteps_row (hroom : br.length + (m + 1) = cap)
    (hb : Blames cap m .assignment (expr limit m)) :
    ItemSteps cap (arrayRow (expr limit m)) .semicolon (rowBegins outer br) (RowEnds outer br)
      (fun _ => True) where
  declines := (declines_expr limit m).list.visited
  wants := fun k => ⟨_, _, rfl⟩
  passes := fun hs hg => by
    obtain ⟨w, hw, -⟩ := (reads_items (inner_ofRoom limit (m + 1))).visited.sound hs hg
    exact ⟨w, hw⟩
  gives := fun {h s k a s'} hs hexp hg => by
    have hi := itemSteps_expr (takesComma_array outer k br) hroom hb
    rw [arrayRow, gives_visited] at hg
    exact hi.gives_list (by simp) hs hexp hg
  faults := fun {h s k g} hs hexp hk hg => by
    have hi := itemSteps_expr (takesComma_array outer k br) hroom hb
    rw [arrayRow, refuses_visited] at hg
    exact hi.faults_list (by simp) hs hexp (Or.inr hk) hg
  separates := by
    rintro rows q t hq ht
    have hends : EndsItem t.kind := Or.inr (Or.inr (Or.inr ht))
    rcases hq with ⟨items, ⟨x, p, rfl, hk⟩, -⟩ | ⟨items, rfl, hk, hne⟩
    · refine ⟨closeRow rows (p.whole x :: items), hends.admits, ?_, trivial⟩
      rw [hends.step_hold, ht]
      simp [endItem, rowBegins, itemBegins]
    · have hne : items ≠ [] := hne.resolve_right (by simp)
      refine ⟨closeRow rows items, hends.admits, ?_, trivial⟩
      rw [itemBegins, hends.step_want, ht]
      simp [endEmpty, rowBegins, itemBegins, hne]

/-- Where a row is wanted nothing but the bracket may end. -/
lemma endEmpty_array {items : List Outline} (hk : kind ≠ .closeBracket)
    (hs : kind = .semicolon → items = []) :
    endEmpty kind (.array outer rows items :: br) = none := by
  rw [endEmpty, if_neg hk, if_neg]
  simpa using hs

/-- After rows the machine is stuck where the bracket may not end. -/
lemma stuck_rows (hc : kind ≠ .closeBracket)
    (hq : ListEnds .semicolon (rowBegins outer br) (RowEnds outer br) (fun _ => True) true rows q
      kind) : Stuck q kind := by
  rcases hq with ⟨rows, hrow, hs⟩ | ⟨rows, rfl, hk, -⟩
  · exact ItemsEnd.stuck hrow (fun o items hne => by simp [endItem, hc, hne, hs])
      fun items => endEmpty_array hc fun h => absurd h hs
  · exact stuck_want hk (endEmpty_array hc fun _ => rfl)

/-- After rows the bracket may be closed. -/
lemma closable_rows
    (hq : ListEnds .semicolon (rowBegins outer br) (RowEnds outer br) (fun _ => True) true rows q
      kind) : q.Closable := by
  have hends : ∀ rows items, endEmpty .closeBracket (.array outer rows items :: br) ≠ none :=
    fun rows items => by simp [endEmpty]
  rcases hq with ⟨rows, hrow, -⟩ | ⟨rows, rfl, -, -⟩
  · exact ItemsEnd.closable hrow rfl fun items _ => hends rows items
  · exact closable_want_iff.mpr ⟨rfl, .closeBracket, rfl, hends rows []⟩

lemma balanced_rows {es : List (List Expr)} (hw : Rows m w es) : Balanced w :=
  balanced_listOf ⟨rfl, rfl⟩ (fun _ hp => hp.1.balanced ⟨rfl, rfl⟩ (balanced_words fun a ha =>
    (hp.2 a ha).balanced)) hw

end Rows

/-! ### Operands -/

section Choice

variable {first next : String × Rule Expr} {others : List (String × Rule Expr)}

/-- Past an alternative that declines a failure further on is that of the
others. -/
lemma refuses_choice_past {y : Expectation} (hf : first.2.Refuses s (.unexpected s y))
    (hg : (choice first (next :: others)).Refuses s g) :
    ∃ g', (choice next others).Refuses s g' ∧ (Beyond g' s → g = g') := by
  obtain ⟨g₁, hg₁, h⟩ := refuses_choice_cons.mp hg
  obtain rfl := hg₁.unique hf
  rcases h with ⟨h, -⟩ | ⟨-, g', hg', rfl⟩
  · rw [unexpected_isRecoverable] at h
    cases h
  · refine ⟨g', hg', fun hb => ?_⟩
    split_ifs with hrec
    · rw [Failure.furthest, if_pos]
      rw [Failure.inAlternative_offset]
      exact hb hrec
    · rfl

/-- A failure further on is kept where the other alternatives decline. -/
lemma refuses_choice_here {g' : Failure} (ho : (choice next others).Refuses s g')
    (hd : g'.declinesAt s = true) (hg : (choice first (next :: others)).Refuses s g) :
    ∃ g₁, first.2.Refuses s g₁ ∧ (Beyond g₁ s → g = g₁.inAlternative first.1) := by
  obtain ⟨g₁, hg₁, ⟨-, rfl⟩ | ⟨hrec, g₂, hg₂, rfl⟩⟩ := refuses_choice_cons.mp hg
  · exact ⟨g₁, hg₁, fun _ => rfl⟩
  · obtain rfl := hg₂.unique ho
    rw [Failure.declinesAt, Bool.and_eq_true, decide_eq_true_eq] at hd
    refine ⟨g₁, hg₁, fun hb => ?_⟩
    have hlt := hb hrec
    rw [if_pos hd.1, Failure.furthest, if_neg]
    rw [Failure.inAlternative_offset]
    omega

end Choice

/-- Inside parentheses the machine stops where the rule fails. -/
lemma faults_group (hb : BlamesInside limit cap n) (hs : s.Ordered)
    (hexp : Explains h (.want p br)) (hroom : br.length + n = cap)
    (hk : s.current.kind = .openParen) (hg : (group (Scope.ofRoom limit n)).Refuses s g) :
    Faults cap h s (.want p br) g := by
  have hp := passes_advance hs hk (by simp)
  have hstep : stepUsual (.want p br) s.current = some (.want .nothing (.group p :: br)) := by
    simp [stepWant, hk]
  have hs' := hs.passes hp
  have hexp' := hexp.step hstep
  rw [group, refuses_value fun a => rfl] at hg
  refine faults_bracketed rfl hs hk hroom hstep ?_ ?_ hg rfl
  · rintro m g rfl hg
    cases hstart : s.advance.current.kind.startsOperand with
    | true =>
        exact hb m rfl hs' hexp' (by rw [List.length_cons]; omega) ⟨rfl, rfl, rfl, rfl⟩
          ⟨hstart, by simp⟩ hg
    | false =>
        rw [hg.unique (declines_expr limit m s.advance hs' hstart)]
        exact .here (offends_item hstart (fun _ => rfl) _)
  · rintro m a s₁ rfl hg hc
    have hroom' : (Bracket.group p :: br).length + m ≤ cap := by
      rw [List.length_cons]
      omega
    obtain ⟨w, x, p', hw, hbalanced, hsteps, hstop⟩ := steps_of_gives_expr hs' hroom' hg
    exact ⟨w, _, hw, hsteps, stuck_hold hstop fun o => by rw [endItem, if_neg hc],
      closable_hold x p' _ br, hbalanced⟩

/-- Inside an array the machine stops where the rule fails. -/
lemma faults_array (hb : BlamesInside limit cap n) (hs : s.Ordered)
    (hexp : Explains h (.want p br)) (hroom : br.length + n = cap)
    (hk : s.current.kind = .openBracket) (hg : (array (Scope.ofRoom limit n)).Refuses s g) :
    Faults cap h s (.want p br) g := by
  have hp := passes_advance hs hk (by simp)
  have hstep : stepUsual (.want p br) s.current = some (rowBegins p br []) := by
    simp [stepWant, hk, rowBegins, itemBegins]
  have hs' := hs.passes hp
  have hexp' := hexp.step hstep
  rw [array, refuses_visited, refuses_value fun a => rfl] at hg
  refine faults_bracketed rfl hs hk hroom hstep ?_ ?_ hg rfl
  · rintro m g rfl hg
    exact (itemSteps_row hroom (hb m rfl)).faults_list (by simp) hs' hexp' (Or.inl rfl) hg
  · rintro m a s₁ rfl hg hc
    obtain ⟨w, q₁, hw, hsteps, hq⟩ :=
      (itemSteps_row hroom (hb m rfl)).gives_list (by simp) hs' hexp' hg
    obtain ⟨w', hw', hrows, -⟩ := (reads_rows (inner_ofRoom limit (m + 1))).sound hs' hg
    obtain rfl := hw.word_unique hw'
    exact ⟨w, q₁, hw, hsteps, stuck_rows hc hq, closable_rows hq, balanced_rows hrows⟩

/-- Where an operand is no literal and no name, it is refused by the rules of
the brackets. -/
lemma refuses_operandChoice_brackets {scope : Scope} (hl : ∀ kind, s.current.kind ≠ .literal kind)
    (hn : s.current.kind ≠ .name) (hg : (operandChoice scope).Refuses s g) :
    ∃ g', (choice ("parenthesized expression", group scope)
      [("array literal", array scope)]).Refuses s g' ∧ (Beyond g' s → g = g') := by
  rw [operandChoice] at hg
  obtain ⟨g₁, hg₁, h₁⟩ := refuses_choice_past (refuses_literal hl) hg
  obtain ⟨g₂, hg₂, h₂⟩ := refuses_choice_past (refuses_name hn) hg₁
  refine ⟨g₂, hg₂, fun hb => ?_⟩
  have h := h₂ hb
  rw [h₁ (h ▸ hb), h]

/-- An operand in parentheses is refused where the parentheses are. -/
lemma refuses_operandChoice_group {scope : Scope} (hk : s.current.kind = .openParen)
    (hg : (operandChoice scope).Refuses s g) :
    ∃ g', (group scope).Refuses s g' ∧
      (Beyond g' s → g = g'.inAlternative "parenthesized expression") := by
  obtain ⟨g₁, hg₁, h₁⟩ := refuses_operandChoice_brackets (by simp [hk]) (by simp [hk]) hg
  obtain ⟨y, hy⟩ := refuses_array scope (s := s) (by simp [hk])
  have hlast : (choice ("array literal", array scope) []).Refuses s
      ((Failure.unexpected s y).inAlternative "array literal") := by
    rw [choice_nil, refuses_alternative]
    exact ⟨_, hy, rfl⟩
  have hd := (Failure.inAlternative_declinesAt _ "array literal" s).trans
    (unexpected_declinesAt s y)
  obtain ⟨g₂, hg₂, h₂⟩ := refuses_choice_here hlast hd hg₁
  refine ⟨g₂, hg₂, fun hb => ?_⟩
  have h := h₂ hb
  rw [h₁ (h ▸ hb.inAlternative _), h]

/-- An array is refused where its brackets are. -/
lemma refuses_operandChoice_array {scope : Scope} (hk : s.current.kind = .openBracket)
    (hg : (operandChoice scope).Refuses s g) :
    ∃ g', (array scope).Refuses s g' ∧
      (Beyond g' s → g = g'.inAlternative "array literal") := by
  obtain ⟨g₁, hg₁, h₁⟩ := refuses_operandChoice_brackets (by simp [hk]) (by simp [hk]) hg
  obtain ⟨y, hy⟩ := refuses_group scope (s := s) (by simp [hk])
  obtain ⟨g₂, hg₂, h₂⟩ := refuses_choice_past hy hg₁
  rw [choice_nil, refuses_alternative] at hg₂
  obtain ⟨g₃, hg₃, rfl⟩ := hg₂
  refine ⟨g₃, hg₃, fun hb => ?_⟩
  have h := h₂ (hb.inAlternative _)
  rw [h₁ (h ▸ hb.inAlternative _), h]

/-- How an operand is refused where one begins: in its brackets. -/
lemma refuses_operandChoice_cases {scope : Scope} (hk : Begins .operand s.current.kind)
    (hg : (operandChoice scope).Refuses s g) :
    (s.current.kind = .openParen ∧ ∃ g', (group scope).Refuses s g' ∧
      (Beyond g' s → g = g'.inAlternative "parenthesized expression")) ∨
    (s.current.kind = .openBracket ∧ ∃ g', (array scope).Refuses s g' ∧
      (Beyond g' s → g = g'.inAlternative "array literal")) := by
  rcases hkind : s.current.kind with kind | _ | op | _ | _ | _ | _ | _ | _ | _ | _ | _ | _ <;>
    rw [hkind] at hk
  case literal =>
    rw [operandChoice] at hg
    obtain ⟨g₁, hg₁, -⟩ := refuses_choice_cons.mp hg
    exact absurd hg₁ (not_refuses_literal hkind)
  case name =>
    rw [operandChoice] at hg
    obtain ⟨g', hg', -⟩ := refuses_choice_past (refuses_literal (by simp [hkind])) hg
    obtain ⟨g₁, hg₁, -⟩ := refuses_choice_cons.mp hg'
    exact absurd hg₁ (not_refuses_name hkind)
  case openParen => exact Or.inl ⟨rfl, refuses_operandChoice_group hkind hg⟩
  case openBracket => exact Or.inr ⟨rfl, refuses_operandChoice_array hkind hg⟩
  case arith =>
    cases op with
    | minus => exact absurd rfl (hk.2 (Or.inl rfl))
    | _ => simp [Begins, Kind.startsOperand] at hk
  all_goals simp [Begins, Kind.startsOperand] at hk

/-- **An operand fails where the machine does.** -/
lemma blames_operand (hb : BlamesInside limit cap n) :
    Blames cap n .operand (operand (Scope.ofRoom limit n)) := by
  intro h s g p br hs hexp hroom hclean hk hg
  rw [operand, refuses_visited] at hg
  obtain ⟨e, he, rfl⟩ := refuses_called.mp hg
  have hfault : Faults cap h s (.want p br) e := by
    rcases refuses_operandChoice_cases hk he with ⟨hkind, g', hg', h'⟩ | ⟨hkind, g', hg', h'⟩
    · have hf := faults_group hb hs hexp hroom hkind hg'
      exact h' (hf.beyond hs hk.1) ▸ hf.inAlternative _
    · have hf := faults_array hb hs hexp hroom hkind hg'
      exact h' (hf.beyond hs hk.1) ▸ hf.inAlternative _
  rwa [hfault.not_declinesAt hs hk.1, if_neg (by simp)]

/-! ### Suffixes -/

/-- Without a field name the machine stops. -/
lemma faults_field (hs : s.Ordered) (hk : s.current.kind = .dot) (hg : fieldSuffix.Refuses s g) :
    Faults cap h s (.hold x p br) g := by
  have hp := passes_advance hs hk (by simp)
  have hstep : stepUsual (.hold x p br) s.current = some (.field x p br) := by
    simp [stepHold, hk]
  have hsteps : Steps True cap (.hold x p br) [s.current] (.field x p br) :=
    steps_one (admits_plain hk rfl (by simp) (by simp)) hstep
  simp only [fieldSuffix, refuses_bind, refuses_spanned, gives_token, not_refuses_pure, and_false,
    exists_false, or_false] at hg
  rcases hg with hg | ⟨t, s₁, ⟨-, rfl, rfl⟩, hg⟩
  · exact absurd hk (refuses_token hg).1
  · obtain ⟨hne, e, rfl⟩ := refuses_token hg
    have hstuck : Stuck (.field x p br) s.advance.current.kind :=
      ⟨rfl, fun t ht => by rw [stepUsual_field, if_neg (by rw [ht]; exact hne)]⟩
    exact hstuck.faults (Failure.unexpected_stopsAt _ e)
      (fun _ => Failure.unexpected_asks not_closable_field _ e _) hp hsteps

/-- How a suffix is refused: in the suffix that its first token starts. -/
lemma refuses_suffix? {scope : Scope} (hg : (suffix? scope).Refuses s g) :
    (s.current.kind = .openParen ∧ (callSuffix scope).Refuses s g) ∨
      (s.current.kind = .openBracket ∧ (indexSuffix scope).Refuses s g) ∨
        (s.current.kind = .dot ∧ fieldSuffix.Refuses s g) := by
  rw [suffix?, refuses_bind_current] at hg
  cases hk : s.current.kind with
  | openParen =>
      rw [hk, refuses_value fun a => rfl] at hg
      exact Or.inl ⟨rfl, hg⟩
  | openBracket =>
      rw [hk, refuses_value fun a => rfl] at hg
      exact Or.inr (Or.inl ⟨rfl, hg⟩)
  | dot =>
      rw [hk, refuses_value fun a => rfl] at hg
      exact Or.inr (Or.inr ⟨rfl, hg⟩)
  | _ => simp [hk] at hg

/-- **A suffix fails where the machine does.** -/
lemma faults_suffix (hb : BlamesInside limit cap n) (hs : s.Ordered)
    (hexp : Explains h (.hold x p br)) (hroom : br.length + n = cap)
    (hg : (suffix? (Scope.ofRoom limit n)).Refuses s g) : Faults cap h s (.hold x p br) g := by
  have hq : (State.hold x p br).brackets = br := rfl
  obtain ⟨hk, hg⟩ | ⟨hk, hg⟩ | ⟨hk, hg⟩ := refuses_suffix? hg
  · rw [callSuffix, refuses_visited] at hg
    exact faults_items (.args p x) hb rfl hs hexp hk hq hroom
      (by simp [stepHold, hk, itemBegins]) (fun o items => by simp [endItem])
      (fun kind o items hc hne => by simp [endItem, hc, hne])
      (fun kind items hc => by simp [endEmpty, hc]) (fun items _ => by simp [endEmpty]) (by simp)
      hg rfl
  · rw [indexSuffix, refuses_visited, refuses_value fun a => rfl] at hg
    exact faults_items (.subscripts p x) hb rfl hs hexp hk hq hroom
      (by simp [stepHold, hk, itemBegins]) (fun o items => by simp [endItem])
      (fun kind o items hc hne => by simp [endItem, hc, hne])
      (fun kind items hc => by simp [endEmpty, hc])
      (fun items hne => by simpa [endEmpty] using hne) (fun _ kind => by simp [endEmpty]) hg rfl
  · exact faults_field hs hk hg

/-- What derives from a nonterminal takes the machine along. -/
lemma steps_of_within {l : Level} {e : Expr} (hw : Within True n l w e)
    (hroom : br.length + n = cap) (hclean : Clean l p) :
    ∃ x p', Steps True cap (.want p br) w (.hold x p' br) ∧ Settles l p x p' (Expr.outline e) :=
  runs_of_derives hw.1 hw.2 p br (fun _ => hroom.le) hclean

lemma blames_suffixed (hb : BlamesInside limit cap n) :
    Blames cap n .suffixed (suffixed (Scope.ofRoom limit n)) := by
  intro h s g p br hs hexp hroom hclean hk hg
  rw [suffixed, refuses_parts] at hg
  obtain hg | ⟨base, s₁, hbase, hg⟩ := hg
  · exact blames_operand hb hs hexp hroom trivial ⟨hk.1, fun _ => hk.2 (Or.inr rfl)⟩ hg
  · have hi := inner_ofRoom limit n
    obtain ⟨v, hv, hG, -⟩ := (reads_operand hi).sound hs hbase
    obtain ⟨xs, s₂, hxs, hp, -, hg⟩ := (reads_suffixes hi).many_refuses (hs.passes hv) hg
    obtain ⟨x, p', hsteps, -⟩ :=
      steps_of_within (within_suffixed_iff.mpr ⟨v, base, xs, hG, hxs, rfl, rfl⟩) hroom hclean
    have hvp := hv.append hp
    exact (faults_suffix hb (hs.passes hvp) (hexp.steps hsteps) hroom hg).after hvp hsteps

/-! ### Operators -/

lemma not_refuses_sign? : ¬ sign?.Refuses s g := by
  rw [sign?, refuses_bind_current]
  by_cases hk : s.current.kind = .arith .minus <;> simp [hk]

/-- Minus signs take the machine along. -/
lemma steps_signs {signs : List Token} (h : ∀ t ∈ signs, t.kind = .arith .minus) (p : Pending) :
    Steps True cap (.want p br) signs
      (.want { p with signs := p.signs + signs.length } br) := by
  induction signs generalizing p with
  | nil => exact .nil _
  | cons t signs ih =>
      obtain ⟨ht, hsigns⟩ := List.forall_mem_cons.mp h
      have hrest := ih hsigns { p with signs := p.signs + 1 }
      have hlen : p.signs + 1 + signs.length = p.signs + (t :: signs).length := by
        rw [List.length_cons]
        omega
      simp only [hlen] at hrest
      exact .cons (admits_plain ht rfl (by simp) (by simp)) (by simp [stepWant, ht])
        hrest

lemma blames_signed (hb : BlamesInside limit cap n) :
    Blames cap n .signed (signed (Scope.ofRoom limit n)) := by
  intro h s g p br hs hexp hroom hclean hk hg
  rw [signed, refuses_parts] at hg
  obtain hg | ⟨spans, s₁, hsigns, hg⟩ := hg
  · obtain ⟨bs, s₁, -, hg⟩ := refuses_many reads_signs.reading hs hg
    exact absurd hg not_refuses_sign?
  · obtain ⟨signs, s₂, hsg, -, hp, -, hnone⟩ := reads_signs.many_sound hs hsigns
    obtain ⟨hne, rfl⟩ := gives_sign?_none.mp hnone
    rw [List.flatMap_singleton'] at hp
    have hsteps : Steps True cap (.want p br) signs _ := steps_signs hsg p
    have hs₁ := hs.passes hp
    have hexp₁ := hexp.steps hsteps
    refine Faults.after hp hsteps ?_
    cases signs with
    | nil =>
        rw [TokenStream.passes_nil_iff] at hp
        subst hp
        exact blames_suffixed hb hs₁ hexp₁ hroom trivial ⟨hk.1, fun _ => hne⟩ hg
    | cons t signs =>
        exact (blames_suffixed hb).faults ((declines_operand _).bind.visited) hs₁ hexp₁ hroom
          trivial (by simp [Pending.isNothing]) (fun _ => hne) hg

section Chain

variable {ω : Type} {l lower : Level} {op? : Kind → Option ω} {isOp : Kind → ω → Prop}
  {operand : Rule Expr}

/-- How a link of a chain is refused: in the operand after its operator. -/
lemma refuses_link (hg : (link? op? operand).Refuses s g) :
    ∃ op, op? s.current.kind = some op ∧ operand.Refuses s.advance g := by
  rw [link?, refuses_bind_current] at hg
  cases hop : op? s.current.kind with
  | none => simp [hop] at hg
  | some op =>
      rw [hop, refuses_bind_advance, refuses_value fun a => rfl] at hg
      exact ⟨op, rfl, hg⟩

/-- How a chain of operands takes the machine along: what its operands read, that
an operator leads to the next operand, and that the operands and operators read
so far are a word of their own. -/
structure ChainSteps (cap n : ℕ) (l lower : Level) (op? : Kind → Option ω)
    (isOp : Kind → ω → Prop) (operand : Rule Expr) (k : Expr → List (ω × Expr) → Expr) : Prop where
  reads : operand.Reads (Within True n lower) (Stops lower) (Stops lower)
  declines : operand.Declines
  above : lower ≠ .operand ∧ lower ≠ .suffixed
  clean : ∀ p, Clean l p → Clean lower p
  finish : op? .finish = none
  stops : ∀ kind op, op? kind = some op → Stops lower kind
  isOp_iff : ∀ kind op, op? kind = some op ↔ isOp kind op
  chain : ∀ first links, Chain isOp (Within True n lower) first links →
    Within True n l (chainTokens first links) (k first.tree (links.map Link.side))
  step : ∀ t op x p br, isOp t.kind op → ∃ p', stepUsual (.hold x p br) t = some (.want p' br) ∧
    Clean lower p' ∧ p'.isNothing = false ∧ Admits True cap (.hold x p br) t

variable {isOp : Kind → ω → Prop} {k : Expr → List (ω × Expr) → Expr} {first : Expr} {op : ω}

/-- Operands, and an operator after them, lead the machine to the next operand. -/
lemma ChainSteps.links (hc : ChainSteps cap n l lower op? isOp operand k) (hs : s.Ordered)
    (hroom : br.length + n = cap) (hclean : Clean l p) (hv : s.Passes v s₁)
    (hfirst : Within True n lower v first) {links : List (Link ω)} {s₂ : TokenStream}
    (hlinks : ∀ l ∈ links, op? l.token.kind = some l.op ∧
      Within True n lower l.right.tokens l.right.tree)
    (hp : s₁.Passes (links.flatMap Link.tokens) s₂) (hop : op? s₂.current.kind = some op) :
    ∃ w p', s.Passes w s₂.advance ∧ Steps True cap (.want p br) w (.want p' br) ∧
      Clean lower p' ∧ p'.isNothing = false := by
  have hchain : Chain isOp (Within True n lower) ⟨v, first⟩ links :=
    ⟨hfirst, fun l hl => (hc.isOp_iff _ _).mp (hlinks l hl).1, fun l hl => (hlinks l hl).2⟩
  obtain ⟨x, p₁, hsteps, -⟩ := steps_of_within (hc.chain _ _ hchain) hroom hclean
  have hvp : s.Passes (chainTokens ⟨v, first⟩ links) s₂ := hv.append hp
  obtain ⟨p₂, hq, hclean₂, hp₂, hadmits⟩ :=
    hc.step s₂.current op x p₁ br ((hc.isOp_iff _ _).mp hop)
  have hpt := passes_advance (hs.passes hvp) rfl (op?_finish_ne hc.finish hop)
  exact ⟨_, p₂, hvp.append hpt, hsteps.append (steps_one hadmits hq), hclean₂, hp₂⟩

/-- **A chain fails where the machine does**, if its operands do. -/
lemma blames_chain {name : String} (hc : ChainSteps cap n l lower op? isOp operand k)
    (hb : Blames cap n lower operand) :
    Blames cap n l (do
      visit name
      let first ← operand
      let links ← many (link? op? operand)
      return k first links) := by
  intro h s g p br hs hexp hroom hclean hk hg
  have hlow : ¬ (lower = .operand ∨ lower = .suffixed) := not_or.mpr hc.above
  obtain hg | ⟨first, s₁, hfirst, hg⟩ := refuses_parts.mp hg
  · exact hb hs hexp hroom (hc.clean p hclean) ⟨hk.1, fun hl => absurd hl hlow⟩ hg
  · obtain ⟨v, hv, hG, -⟩ := hc.reads.sound hs hfirst
    obtain ⟨ls, s₂, hls, hp, -, hg⟩ :=
      (reads_links hc.reads hc.finish hc.stops).many_refuses (hs.passes hv) hg
    obtain ⟨op, hop, hg⟩ := refuses_link hg
    obtain ⟨w, p', hw, hsteps, hclean', hp'⟩ := hc.links hs hroom hclean hv hG hls hp hop
    refine Faults.after hw hsteps ?_
    exact hb.faults hc.declines (hs.passes hw) (hexp.steps hsteps) hroom hclean' hp'
      (fun hl => absurd hl hlow) hg

end Chain

lemma chainSteps_product (limit : ℤ) (cap n : ℕ) :
    ChainSteps cap n .product .signed Kind.productOp? Kind.isProductOp
      (signed (Scope.ofRoom limit n)) fun first links => links.foldl Expr.arithWith first where
  reads := reads_signed (inner_ofRoom limit n)
  declines := declines_signed _
  above := by simp
  clean := fun _ _ => trivial
  finish := rfl
  stops := stops_of_productOp
  isOp_iff := Kind.productOp?_eq_some_iff
  chain := fun first links hc => within_product_iff.mpr ⟨first, links, hc, rfl, rfl⟩
  step := by
    rintro t op x p br ⟨hk, hop⟩
    refine ⟨p.afterFactor x op.outline, ?_, trivial,
      by simp [Pending.isNothing, Pending.afterFactor],
      admits_plain hk rfl (by simp) (by simp)⟩
    rcases hop with rfl | rfl <;> simp [stepHold, hk, leaf_usual_arith hk]

lemma chainSteps_sum (limit : ℤ) (cap n : ℕ) :
    ChainSteps cap n .sum .product Kind.sumOp? Kind.isSumOp (product (Scope.ofRoom limit n))
      fun first links => links.foldl Expr.arithWith first where
  reads := reads_product (inner_ofRoom limit n)
  declines := declines_product _
  above := by simp
  clean := fun _ hp => hp.2
  finish := rfl
  stops := stops_of_sumOp
  isOp_iff := Kind.sumOp?_eq_some_iff
  chain := fun first links hc => within_sum_iff.mpr ⟨first, links, hc, rfl, rfl⟩
  step := by
    rintro t op x p br ⟨hk, hop⟩
    refine ⟨p.afterTerm x op.outline, ?_, ⟨rfl, rfl⟩,
      by simp [Pending.isNothing, Pending.afterTerm],
      admits_plain hk rfl (by simp) (by simp)⟩
    rcases hop with rfl | rfl <;> simp [stepHold, hk, leaf_usual_arith hk]

lemma chainSteps_comparison (limit : ℤ) (cap n : ℕ) :
    ChainSteps cap n .comparison .sum Kind.compareOp? Kind.isCompareOp
      (sum (Scope.ofRoom limit n)) Expr.compareWith where
  reads := reads_sum (inner_ofRoom limit n)
  declines := declines_sum _
  above := by simp
  clean := fun _ hp => hp.2
  finish := rfl
  stops := stops_of_compareOp
  isOp_iff := Kind.compareOp?_eq_some_iff
  chain := fun first links hc => within_comparison_iff.mpr ⟨first, links, hc, rfl, rfl⟩
  step := by
    intro t op x p br hk
    rw [Kind.isCompareOp] at hk
    exact ⟨p.afterComparand x op.outline, by simp [stepHold, hk, leaf_usual_compare hk],
      ⟨rfl, rfl, rfl⟩, by simp [Pending.isNothing, Pending.afterComparand],
      admits_plain hk rfl (by simp) (by simp)⟩

lemma blames_comparison (hb : BlamesInside limit cap n) :
    Blames cap n .comparison (comparison (Scope.ofRoom limit n)) :=
  have hproduct := blames_chain (chainSteps_product limit cap n) (blames_signed hb)
  have hsum := blames_chain (chainSteps_sum limit cap n) hproduct
  blames_chain (chainSteps_comparison limit cap n) hsum

/-! ### Assignments -/

lemma refuses_side {scope : Scope} :
    (side scope).Refuses s g ↔ (comparison scope).Refuses s g := by
  rw [side, refuses_bind_current, refuses_value fun a => rfl]

/-- How a further side is refused: what stands before the `=` is no target, or
what stands after it is refused. -/
lemma refuses_furtherSide {scope : Scope} {before : Token × Expr}
    (hg : (furtherSide scope before).Refuses s g) : s.current.kind = .assign ∧
      (¬ IsTarget before.2 ∧ g = badTarget before ∨
        IsTarget before.2 ∧ (comparison scope).Refuses s.advance g) := by
  rw [furtherSide, refuses_bind_current] at hg
  by_cases hk : s.current.kind = .assign
  · refine ⟨hk, ?_⟩
    rw [if_pos hk] at hg
    rw [← isAssignable_iff]
    by_cases ha : before.2.isAssignable = true
    · rw [if_pos ha, refuses_bind_advance, refuses_value fun a => rfl, refuses_side] at hg
      exact Or.inr ⟨ha, hg⟩
    · rw [if_neg ha, refuses_fail] at hg
      exact Or.inl ⟨ha, hg⟩
  · rw [if_neg hk] at hg
    exact absurd hg not_refuses_pure

/-- A side begins at a boundary. -/
lemma boundary_of_explains (hexp : Explains h (.want p br)) (hclean : Clean .comparison p) :
    Boundary h := by
  obtain ⟨u, v, rfl, hu, hv⟩ := hexp
  obtain ⟨h1, h2, h3, h4⟩ := hclean
  exact Boundary.targets hu.boundary (hv.targets h1 h2 h3 h4)

/-- A `=` after a target leads the machine to the next side. -/
lemma steps_assign {e : Expr} {t : Token} (hx : p.compared x = Expr.outline e) (he : IsTarget e)
    (ht : t.kind = .assign) : Steps True cap (.hold x p br) [t] (.want (p.afterTarget x) br) := by
  refine steps_one ⟨fun _ ho => ?_, fun _ _ y p' br' hq => ?_,
    fun _ => not_isLongInteger ht (by simp)⟩ (by simp [stepHold, ht])
  · simp [ht, Kind.isOpening] at ho
  · obtain ⟨rfl, rfl, -⟩ := State.hold.inj hq
    rw [hx]
    exact (isTarget_outline_iff e).mpr he

/-- Further sides take the machine to where the last of them begins. The rounds
begin behind the side `before`, whose tokens `v` stand from `s` to `s₁`. -/
lemma steps_sides {before last : Token × Expr} {others : List Expr} {s₂ : TokenStream}
    (hr : Reaches (furtherSide (Scope.ofRoom limit n)) before s₁ others last s₂)
    (hs : s.Ordered) (hroom : br.length + n = cap) (hclean : Clean .comparison p)
    (hp : s.Passes v s₁) (hv : Within True n .comparison v before.2) :
    ∃ w s' p' v', s.Passes w s' ∧ Steps True cap (.want p br) w (.want p' br) ∧
      Clean .comparison p' ∧ s'.Passes v' s₂ ∧ Within True n .comparison v' last.2 := by
  induction hr generalizing s v p with
  | refl before s₁ => exact ⟨[], s, p, v, rfl, .nil _, hclean, hp, hv⟩
  | @round before next last s₁ s₂ s₃ e others h' _ ih =>
      obtain ⟨hk, he, rfl, hside⟩ := gives_furtherSide_some.mp h'
      obtain ⟨x, p₁, hsteps, -, hx⟩ := steps_of_within hv hroom hclean
      have hs₁ := hs.passes hp
      have hpt := passes_advance hs₁ hk (by simp)
      obtain ⟨u, hu, hG, -⟩ :=
        (reads_comparison (inner_ofRoom limit n)).sound (hs₁.passes hpt) (gives_side.mp hside).2
      obtain ⟨w, s', p', v', hw, hsteps', hrest⟩ :=
        ih (hs₁.passes hpt) (p := p₁.afterTarget x) ⟨rfl, rfl, rfl, rfl⟩ hu hG
      exact ⟨_, s', p', v', (hp.append hpt).append hw,
        (hsteps.append (steps_assign hx he hk)).append hsteps', hrest⟩

/-- **The sides of an assignment fail where the machine does.** -/
lemma faults_sides (hb : BlamesInside limit cap n) {before last : Token × Expr}
    {others : List Expr} {s₂ : TokenStream}
    (hr : Reaches (furtherSide (Scope.ofRoom limit n)) before s₁ others last s₂)
    (hg : (furtherSide (Scope.ofRoom limit n) last).Refuses s₂ g) (hs : s.Ordered)
    (hexp : Explains h (.want p br)) (hroom : br.length + n = cap) (hclean : Clean .comparison p)
    (hp : s.Passes v s₁) (hv : Within True n .comparison v before.2) :
    Faults cap h s (.want p br) g := by
  obtain ⟨w, s', p', v', hw, hsteps, hclean', hp', hv'⟩ := steps_sides hr hs hroom hclean hp hv
  obtain ⟨x, p₁, hsteps', -, hx⟩ := steps_of_within hv' hroom hclean'
  have hexp' := hexp.steps hsteps
  have hs₂ := (hs.passes hw).passes hp'
  refine Faults.after hw hsteps (Faults.after hp' hsteps' ?_)
  obtain ⟨hk, ⟨he, rfl⟩ | ⟨he, hg⟩⟩ := refuses_furtherSide hg
  · have hleft := leftOperand_of_boundary (boundary_of_explains hexp' hclean') hv'.1
    have hpt := passes_advance hs₂ hk (by simp)
    refine .here (.target hpt.1 hk (by simp [stepHold, hk]) hleft he rfl ?_)
    rw [badTarget, hv'.span_eq]
  · have hpt := passes_advance hs₂ hk (by simp)
    have hassign : Steps True cap (.hold x p₁ br) [s₂.current] (.want (p₁.afterTarget x) br) :=
      steps_assign hx he hk
    refine Faults.after hpt hassign ?_
    exact (blames_comparison hb).faults (declines_comparison _) (hs₂.passes hpt)
      ((hexp'.steps hsteps').steps hassign) hroom ⟨rfl, rfl, rfl, rfl⟩
      (by simp [Pending.isNothing, Pending.afterTarget]) (by simp) hg

/-- How an assignment is refused: its first side is, or one of the others. -/
lemma refuses_assignment (h : (assignment (Scope.ofRoom limit n)).Refuses s g) :
    (comparison (Scope.ofRoom limit n)).Refuses s g ∨ ∃ first s₁,
      (side (Scope.ofRoom limit n)).Gives s first s₁ ∧
        (collect (furtherSide (Scope.ofRoom limit n)) first).Refuses s₁ g := by
  rwa [assignment, refuses_parts, refuses_side] at h

lemma blames_assignment (hb : BlamesInside limit cap n) :
    Blames cap n .assignment (assignment (Scope.ofRoom limit n)) := by
  intro h s g p br hs hexp hroom hclean hk hg
  rcases refuses_assignment hg with hg | ⟨first, s₁, hfirst, hg⟩
  · exact blames_comparison hb hs hexp hroom hclean ⟨hk.1, by simp⟩ hg
  · have hi := inner_ofRoom limit n
    obtain ⟨v, hv, hG, -⟩ := (reads_comparison hi).sound hs (gives_side.mp hfirst).2
    obtain ⟨others, last, s₂, hr, hg⟩ := refuses_collect (reading_furtherSide hi) (hs.passes hv) hg
    exact faults_sides hb hr hg hs hexp hroom hclean hv hG

/-- **The rule for expressions fails where the machine comes to a token that
offends**, whatever the room. -/
theorem blames_expr (limit : ℤ) (cap n : ℕ) : Blames cap n .assignment (expr limit n) :=
  expr_induction (P := fun n r => Blames cap n .assignment r) limit
    (fun _ hb => blames_assignment hb) n

end Parser

end ArrayExpr
