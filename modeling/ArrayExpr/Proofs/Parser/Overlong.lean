/-
Where a parse meets an integer of too many digits.

* `Parser.Meets`: the machine goes on to a state that wants an operand, and a
  long integer stands ahead;
* `Parser.Trips`: in front of an expression a rule overruns only where the
  machine, started there, meets a long integer; there is one lemma for each
  rule, up to `Parser.trips_expr`;
* `Grammar.ReachesLong`: the first long integer of some tokens, with no problem
  up to it; `parse_overlong_iff`: a parse is overlong exactly if there is one;
* `parse_digits`: digits alone, more than are read, are overlong;
* `parse_returns_iff`: a parse ends in a value or an error exactly if there is a
  problem up to every long integer.
-/
import Mathlib.Data.List.TakeWhile
import ArrayExpr.Proofs.Parser.Leftmost
import ArrayExpr.Proofs.Scanner.Tiling

namespace ArrayExpr

namespace Parser

open Rule Grammar Reference

variable {limit : ℤ} {cap k m n : ℕ} {h v w : List Token} {s s' s₁ : TokenStream}
  {q q₀ q₁ : State} {p : Pending} {br : List Bracket} {x : Outline}

/-- From the state `q` the machine goes on to one in which it wants an operand,
and the token ahead is a long integer, of `k` digits. -/
def Meets (cap : ℕ) (s : TokenStream) (q : State) (k : ℕ) : Prop :=
  ∃ w s₁ p br, s.Passes w s₁ ∧ Steps True cap q w (.want p br) ∧ s₁.current.IsLongInteger ∧
    (s₁.current.text.getD "").length = k

/-- What is met later is met. -/
lemma Meets.after (hp : s.Passes v s₁) (hs : Steps True cap q v q₁) (hm : Meets cap s₁ q₁ k) :
    Meets cap s q k := by
  obtain ⟨w, s₂, p, br, hw, hs₂, hlong⟩ := hm
  exact ⟨v ++ w, s₂, p, br, hp.append hw, hs.append hs₂, hlong⟩

/-! ### Brackets -/

/-- Brackets overrun only in what stands inside. -/
lemma overruns_bracketed {α : Type} {opening closing : Kind} {inside : Rule Expr → Rule α}
    (ho : ((Scope.ofRoom limit n).bracketed opening closing inside).Overruns s k) :
    s.current.kind = opening ∧
      ∃ m, n = m + 1 ∧ (inside (expr limit m)).Overruns s.advance k := by
  rw [Scope.bracketed, overruns_spanned] at ho
  simp only [overruns_bind, gives_token, not_overruns_token, not_overruns_pure, and_false,
    exists_false, or_false, false_or] at ho
  obtain ⟨o, s₁, ⟨hk, rfl, rfl⟩, ho | ⟨r, s₂, hr, ho⟩⟩ := ho
  · rw [Scope.descend] at ho
    split at ho
    · exact absurd ho not_overruns_pure
    · exact absurd ho not_overruns_fail
  · obtain ⟨hinner, rfl⟩ := gives_descend.mp hr
    obtain ⟨m, rfl, rfl⟩ := ofRoom_inner.mp hinner
    exact ⟨hk, m, rfl, ho⟩

/-- **In brackets a long integer is met where it is met inside.** -/
lemma meets_bracketed {α : Type} {opening closing : Kind} {inside : Rule Expr → Rule α}
    (hopen : opening.isOpening = true) (hs : s.Ordered) (hroom : q.brackets.length + n = cap)
    (hstep : s.current.kind = opening → stepUsual q s.current = some q₀)
    (hinside : ∀ m, n = m + 1 → s.advance.Ordered → (inside (expr limit m)).Overruns s.advance k →
      Meets cap s.advance q₀ k)
    (ho : ((Scope.ofRoom limit n).bracketed opening closing inside).Overruns s k) :
    Meets cap s q k := by
  obtain ⟨hk, m, rfl, ho'⟩ := overruns_bracketed ho
  have hp := passes_advance hs hk fun hf => by simp [hf, Kind.isOpening] at hopen
  have hadmits : Admits True cap q s.current := admits_opening (hk ▸ hopen) fun _ => by omega
  exact (hinside m rfl (hs.passes hp) ho').after hp (steps_one hadmits (hstep hk))

/-! ### Lists -/

section List

variable {α σ : Type} {item : Rule α} {separator : Kind} {begins : σ → State}
  {ends : σ → State → Kind → Prop} {full : σ → Prop} {i : σ} {empty : Bool}

/-- An item overruns only where the machine meets a long integer. -/
def ItemTrips (cap : ℕ) (item : Rule α) (begins : σ → State) : Prop :=
  ∀ ⦃h s i k⦄, s.Ordered → Explains h (begins i) → item.Overruns s k → Meets cap s (begins i) k

/-- **In a list a long integer is met where it is met in an item.** -/
lemma ItemSteps.meets_list (hi : ItemSteps cap item separator begins ends full)
    (hsep : separator ≠ .finish) (ht : ItemTrips cap item begins) (hs : s.Ordered)
    (hexp : Explains h (begins i)) {name : String}
    (ho : (separatedList name ⟨true, empty⟩ separator item).Overruns s k) :
    Meets cap s (begins i) k := by
  obtain ho | ⟨a, s₁, hfirst, ho⟩ := overruns_items.mp ho
  · exact ht hs hexp ho
  · obtain ⟨w, q₁, hw, hsteps, hq⟩ := hi.gives hs hexp hfirst
    obtain ⟨bs, s₂, hr, ho⟩ := overruns_many (hi.reading hsep empty) (hs.passes hw) ho
    obtain ⟨u, i₁, q₂, hu, hsteps', hq'⟩ :=
      hi.rounds hsep (hs.passes hw) (hexp.steps hsteps) hr hq
    obtain ⟨hk, ho⟩ := overruns_furtherItem ho
    -- the separator in front of the item
    have hs₂ := (hs.passes hw).passes hu
    obtain ⟨i₂, hp, hstep, -⟩ := hi.step_separator hsep hs₂ hq' hk
    have hall := (hsteps.append hsteps').append hstep
    have hmeets := ht (hs₂.passes hp) (hexp.steps hall) ho
    exact hmeets.after ((hw.append hu).append hp) hall

end List

/-! ### Expressions -/

/-- In front of an expression a rule overruns only where the machine, started
there, meets a long integer; the brackets around leave room for `n` more. -/
def Trips (cap n : ℕ) (l : Level) (r : Rule Expr) : Prop :=
  ∀ ⦃h s k p br⦄, s.Ordered → Explains h (.want p br) → br.length + n = cap → Clean l p →
    r.Overruns s k → Meets cap s (.want p br) k

/-- The rule for expressions inside brackets does so, where `n` brackets fit. -/
def TripsInside (limit : ℤ) (cap n : ℕ) : Prop :=
  ∀ m, n = m + 1 → Trips cap m .assignment (expr limit m)

section Items

variable {mk : List Outline → Bracket} {items : List Outline} {empty : Bool}

lemma itemTrips_expr (ht : Trips cap m .assignment (expr limit m))
    (hroom : br.length + (m + 1) = cap) : ItemTrips cap (expr limit m) (itemBegins mk br) :=
  fun _ _ _ _ hs hexp ho =>
    ht hs hexp (by rw [List.length_cons]; omega) ⟨rfl, rfl, rfl, rfl⟩ ho

/-- Where brackets hold items a long integer is met in one of them. -/
lemma meets_items (mk : List Outline → Bracket) {opening closing : Kind} {name : String}
    (ht : TripsInside limit cap n) (hopen : opening.isOpening = true) (hs : s.Ordered)
    (hexp : Explains h q) (hq : q.brackets = br) (hroom : br.length + n = cap)
    (hstep : s.current.kind = opening → stepUsual q s.current = some (itemBegins mk br []))
    (hcomma : TakesComma mk br)
    (ho : ((Scope.ofRoom limit n).bracketed opening closing fun expr =>
      separatedList name ⟨true, empty⟩ .comma expr).Overruns s k) : Meets cap s q k := by
  have hexp' := hexp.step (hstep (overruns_bracketed ho).1)
  refine meets_bracketed hopen hs (by rw [hq]; exact hroom) hstep ?_ ho
  rintro m rfl hs' ho
  exact (itemSteps_expr hcomma hroom (blames_expr limit cap m)).meets_list (by simp)
    (itemTrips_expr (ht m rfl) hroom) hs' hexp' ho

/-- In a row a long integer is met in one of its items. -/
lemma itemTrips_row {outer : Pending} (ht : Trips cap m .assignment (expr limit m))
    (hroom : br.length + (m + 1) = cap) :
    ItemTrips cap (arrayRow (expr limit m)) (rowBegins outer br) := by
  intro h s rows k hs hexp ho
  rw [arrayRow, overruns_visited] at ho
  have hi := itemSteps_expr (takesComma_array outer rows br) hroom (blames_expr limit cap m)
  exact hi.meets_list (by simp) (itemTrips_expr ht hroom) hs hexp ho

end Items

lemma not_overruns_name : ¬ name.Overruns s k := by
  rw [name, overruns_bind_current]
  split_ifs <;> simp

/-- How an operand overruns: it is a long integer, or it has one in its
brackets. -/
lemma overruns_operand {scope : Scope} (ho : (operand scope).Overruns s k) :
    (s.current.IsLongInteger ∧ (s.current.text.getD "").length = k) ∨
      (group scope).Overruns s k ∨ (array scope).Overruns s k := by
  rw [operand, overruns_visited, overruns_called] at ho
  obtain ⟨r, hr, ho⟩ := overruns_choice ho
  simp only [List.mem_cons, List.not_mem_nil, or_false] at hr
  rcases hr with rfl | rfl | rfl | rfl
  · exact Or.inl (overruns_literal ho)
  · exact absurd ho not_overruns_name
  · exact Or.inr (Or.inl ho)
  · exact Or.inr (Or.inr ho)

lemma trips_operand (ht : TripsInside limit cap n) :
    Trips cap n .operand (operand (Scope.ofRoom limit n)) := by
  intro h s k p br hs hexp hroom hclean ho
  rcases overruns_operand ho with hlong | ho | ho
  · exact ⟨[], s, p, br, rfl, .nil _, hlong⟩
  · rw [group, overruns_value fun a => rfl] at ho
    have hstep : s.current.kind = .openParen →
        stepUsual (.want p br) s.current = some (.want .nothing (.group p :: br)) := fun hk => by
      simp [stepWant, hk]
    have hexp' := hexp.step (hstep (overruns_bracketed ho).1)
    refine meets_bracketed rfl hs hroom hstep ?_ ho
    rintro m rfl hs' ho
    exact ht m rfl hs' hexp' (by rw [List.length_cons]; omega) ⟨rfl, rfl, rfl, rfl⟩ ho
  · rw [array, overruns_visited, overruns_value fun a => rfl] at ho
    have hstep : s.current.kind = .openBracket →
        stepUsual (.want p br) s.current = some (rowBegins p br []) := fun hk => by
      simp [stepWant, hk, rowBegins, itemBegins]
    have hexp' := hexp.step (hstep (overruns_bracketed ho).1)
    refine meets_bracketed rfl hs hroom hstep ?_ ho
    rintro m rfl hs' ho
    exact (itemSteps_row hroom (blames_expr limit cap m)).meets_list (by simp)
      (itemTrips_row (ht m rfl) hroom) hs' hexp' ho

/-! ### Suffixes -/

lemma not_overruns_fieldSuffix : ¬ fieldSuffix.Overruns s k := by
  simp [fieldSuffix]

lemma meets_suffix (ht : TripsInside limit cap n) (hs : s.Ordered)
    (hexp : Explains h (.hold x p br)) (hroom : br.length + n = cap)
    (ho : (suffix? (Scope.ofRoom limit n)).Overruns s k) : Meets cap s (.hold x p br) k := by
  rw [suffix?, overruns_bind_current] at ho
  have hq : (State.hold x p br).brackets = br := rfl
  split at ho
  · rw [overruns_value fun a => rfl, callSuffix, overruns_visited] at ho
    exact meets_items (.args p x) ht rfl hs hexp hq hroom
      (fun hk => by simp [stepHold, hk, itemBegins]) (fun o items => by simp [endItem]) ho
  · rw [overruns_value fun a => rfl, indexSuffix, overruns_visited,
      overruns_value fun a => rfl] at ho
    exact meets_items (.subscripts p x) ht rfl hs hexp hq hroom
      (fun hk => by simp [stepHold, hk, itemBegins]) (fun o items => by simp [endItem]) ho
  · rw [overruns_value fun a => rfl] at ho
    exact absurd ho not_overruns_fieldSuffix
  · exact absurd ho not_overruns_pure

lemma trips_suffixed (ht : TripsInside limit cap n) :
    Trips cap n .suffixed (suffixed (Scope.ofRoom limit n)) := by
  intro h s k p br hs hexp hroom hclean ho
  rw [suffixed, overruns_parts] at ho
  obtain ho | ⟨base, s₁, hbase, ho⟩ := ho
  · exact trips_operand ht hs hexp hroom trivial ho
  · have hi := inner_ofRoom limit n
    obtain ⟨v, hv, hG, -⟩ := (reads_operand hi).sound hs hbase
    obtain ⟨xs, s₂, hxs, hp, ho⟩ := (reads_suffixes hi).many_overruns (hs.passes hv) ho
    obtain ⟨x, p', hsteps, -⟩ :=
      steps_of_within (within_suffixed_iff.mpr ⟨v, base, xs, hG, hxs, rfl, rfl⟩) hroom hclean
    have hvp := hv.append hp
    exact (meets_suffix ht (hs.passes hvp) (hexp.steps hsteps) hroom ho).after hvp hsteps

/-! ### Operators -/

lemma not_overruns_sign? : ¬ sign?.Overruns s k := by
  rw [sign?, overruns_bind_current]
  split_ifs <;> simp

lemma trips_signed (ht : TripsInside limit cap n) :
    Trips cap n .signed (signed (Scope.ofRoom limit n)) := by
  intro h s k p br hs hexp hroom hclean ho
  rw [signed, overruns_parts] at ho
  obtain ho | ⟨spans, s₁, hsigns, ho⟩ := ho
  · obtain ⟨bs, s₁, -, ho⟩ := overruns_many reads_signs.reading hs ho
    exact absurd ho not_overruns_sign?
  · obtain ⟨signs, s₂, hsg, -, hp, -, hnone⟩ := reads_signs.many_sound hs hsigns
    obtain ⟨-, rfl⟩ := gives_sign?_none.mp hnone
    rw [List.flatMap_singleton'] at hp
    have hsteps : Steps True cap (.want p br) signs _ := steps_signs hsg p
    exact (trips_suffixed ht (hs.passes hp) (hexp.steps hsteps) hroom trivial ho).after hp hsteps

section Chain

variable {ω : Type} {l lower : Level} {op? : Kind → Option ω} {isOp : Kind → ω → Prop}
  {operand : Rule Expr} {tree : Expr → List (ω × Expr) → Expr}

/-- How a link of a chain overruns: in the operand after its operator. -/
lemma overruns_link (ho : (link? op? operand).Overruns s k) :
    ∃ op, op? s.current.kind = some op ∧ operand.Overruns s.advance k := by
  rw [link?, overruns_bind_current] at ho
  cases hop : op? s.current.kind with
  | none => simp [hop] at ho
  | some op =>
      rw [hop, overruns_bind_advance, overruns_value fun a => rfl] at ho
      exact ⟨op, rfl, ho⟩

/-- **In a chain a long integer is met where it is met in an operand.** -/
lemma trips_chain {name : String} (hc : ChainSteps cap n l lower op? isOp operand tree)
    (ht : Trips cap n lower operand) :
    Trips cap n l (do
      visit name
      let first ← operand
      let links ← many (link? op? operand)
      return tree first links) := by
  intro h s k p br hs hexp hroom hclean ho
  obtain ho | ⟨first, s₁, hfirst, ho⟩ := overruns_parts.mp ho
  · exact ht hs hexp hroom (hc.clean p hclean) ho
  · obtain ⟨v, hv, hG, -⟩ := hc.reads.sound hs hfirst
    obtain ⟨ls, s₂, hls, hp, ho⟩ :=
      (reads_links hc.reads hc.finish hc.stops).many_overruns (hs.passes hv) ho
    obtain ⟨op, hop, ho⟩ := overruns_link ho
    obtain ⟨w, p', hw, hsteps, hclean', -⟩ := hc.links hs hroom hclean hv hG hls hp hop
    exact (ht (hs.passes hw) (hexp.steps hsteps) hroom hclean' ho).after hw hsteps

end Chain

lemma trips_comparison (ht : TripsInside limit cap n) :
    Trips cap n .comparison (comparison (Scope.ofRoom limit n)) :=
  have hproduct := trips_chain (chainSteps_product limit cap n) (trips_signed ht)
  have hsum := trips_chain (chainSteps_sum limit cap n) hproduct
  trips_chain (chainSteps_comparison limit cap n) hsum

/-! ### Assignments -/

lemma overruns_side {scope : Scope} :
    (side scope).Overruns s k ↔ (comparison scope).Overruns s k := by
  rw [side, overruns_bind_current, overruns_value fun a => rfl]

/-- How a further side overruns: after a `=` with a target before it. -/
lemma overruns_furtherSide {scope : Scope} {before : Token × Expr}
    (ho : (furtherSide scope before).Overruns s k) : s.current.kind = .assign ∧
      IsTarget before.2 ∧ (comparison scope).Overruns s.advance k := by
  rw [furtherSide, overruns_bind_current] at ho
  split_ifs at ho with hk ha
  · rw [overruns_bind_advance, overruns_value fun a => rfl, overruns_side] at ho
    exact ⟨hk, (isAssignable_iff _).mp ha, ho⟩
  · exact absurd ho not_overruns_fail
  · exact absurd ho not_overruns_pure

lemma trips_assignment (ht : TripsInside limit cap n) :
    Trips cap n .assignment (assignment (Scope.ofRoom limit n)) := by
  intro h s k p br hs hexp hroom hclean ho
  rw [assignment, overruns_parts, overruns_side] at ho
  obtain ho | ⟨first, s₁, hfirst, ho⟩ := ho
  · exact trips_comparison ht hs hexp hroom hclean ho
  · have hi := inner_ofRoom limit n
    obtain ⟨v, hv, hG, -⟩ := (reads_comparison hi).sound hs (gives_side.mp hfirst).2
    obtain ⟨others, last, s₂, hr, ho⟩ :=
      overruns_collect (reading_furtherSide hi) (hs.passes hv) ho
    obtain ⟨hk, he, ho⟩ := overruns_furtherSide ho
    obtain ⟨w, s', p', v', hw, hsteps, hclean', hp', hv'⟩ :=
      steps_sides hr hs hroom hclean hv hG
    -- the last side, and the `=` behind it
    obtain ⟨x, p₁, hsteps', -, hx⟩ := steps_of_within hv' hroom hclean'
    have hs₂ := (hs.passes hw).passes hp'
    have hpt := passes_advance hs₂ hk (by simp)
    have hall := (hsteps.append hsteps').append (steps_assign hx he hk)
    have hmeets := trips_comparison ht (hs₂.passes hpt) (hexp.steps hall) hroom
      ⟨rfl, rfl, rfl, rfl⟩ ho
    exact hmeets.after ((hw.append hp').append hpt) hall

/-- **The rule for expressions overruns only where the machine meets a long
integer**, whatever the room. -/
theorem trips_expr (limit : ℤ) (cap n : ℕ) : Trips cap n .assignment (expr limit n) :=
  expr_induction (P := fun n r => Trips cap n .assignment r) limit
    (fun _ ht => trips_assignment ht) n

end Parser

/-! ### Parses -/

namespace Grammar

/-- The token at `i` is the first long integer of some tokens, and none up to it
has a problem. -/
structure ReachesLong (limit : ℕ) (items : List Token) (i : ℕ) (t : Token) : Prop where
  token : items[i]? = some t
  long : t.IsLongInteger
  first : ∀ u ∈ items.take i, ¬ u.IsLongInteger
  clear : ∀ j ≤ i, ¬ Problem limit items j

variable {limit i j : ℕ} {items : List Token} {t u : Token}

/-- Among the first tokens there is no long integer if they are all short. -/
lemma le_of_long (hfirst : ∀ u ∈ items.take j, ¬ u.IsLongInteger) (ht : items[i]? = some t)
    (hlong : t.IsLongInteger) : j ≤ i := by
  by_contra hi
  rw [not_le] at hi
  have htake : (items.take j)[i]? = some t := by rwa [List.getElem?_take_of_lt hi]
  exact hfirst t (List.mem_of_getElem? htake) hlong

lemma ReachesLong.unique (h : ReachesLong limit items i t) (h' : ReachesLong limit items j u) :
    u = t := by
  have hij : i = j :=
    le_antisymm (le_of_long h.first h'.token h'.long) (le_of_long h'.first h.token h.long)
  subst hij
  exact Option.some.inj (h'.token.symm.trans h.token)

/-- Where no token up to a long integer has a problem, the first one is reached. -/
lemma exists_reachesLong (ht : items[i]? = some t) (hlong : t.IsLongInteger)
    (hclear : ∀ j ≤ i, ¬ Problem limit items j) : ∃ j u, ReachesLong limit items j u := by
  induction i using Nat.strong_induction_on generalizing t with
  | _ i ih =>
    by_cases hfirst : ∀ u ∈ items.take i, ¬ u.IsLongInteger
    · exact ⟨i, t, ht, hlong, hfirst, hclear⟩
    · push Not at hfirst
      obtain ⟨u, hu, hlong'⟩ := hfirst
      obtain ⟨j, hj⟩ := List.getElem?_of_mem hu
      have hlt : j < i := by
        have hlt := (List.getElem?_eq_some_iff.mp hj).1
        rw [List.length_take] at hlt
        omega
      rw [List.getElem?_take_of_lt hlt] at hj
      exact ih j hlt hj hlong' fun k hk => hclear k (hk.trans hlt.le)

end Grammar

open Grammar Reference

variable {tokens : Tokens} {limit : ℤ} {source : String} {digits : ℕ}

/-- Where the machine wants an operand a literal has no problem. -/
lemma Reference.Steps.no_problem_literal {cap i : ℕ} {items : List Token} {t : Token}
    {p : Pending} {br : List Reference.Bracket} {kind : LiteralKind}
    (hs : Steps True cap .start (items.take i) (.want p br)) (ht : items[i]? = some t)
    (hk : t.kind = .literal kind) : ¬ Problem cap items i := by
  have hstep : stepUsual (.want p br) t ≠ none := by simp [stepWant, hk]
  rintro (⟨-, ⟨-, hviable⟩ | ⟨hi, -⟩⟩ | ⟨v, t', e, ht', hassign, -⟩ | ⟨t', ht', hopen, -⟩)
  · exact hviable ((hs.viable_succ_iff ht).mpr hstep)
  · rw [hi, List.getElem?_eq_none le_rfl] at ht
    cases ht
  · obtain rfl := Option.some.inj (ht.symm.trans ht')
    rw [hk] at hassign
    cases hassign
  · obtain rfl := Option.some.inj (ht.symm.trans ht')
    rw [hk] at hopen
    cases hopen

/-- What the machine meets from the start is the first long integer, and no
token up to it has a problem. -/
lemma Parser.Meets.reachesLong {cap : ℕ} (hs : (TokenStream.ofTokens tokens).Ordered)
    (h : Parser.Meets cap (.ofTokens tokens) .start digits) :
    ∃ i t, ReachesLong cap tokens.items i t ∧ (t.text.getD "").length = digits := by
  obtain ⟨w, s, p, br, hp, hsteps, hlong, hlength⟩ := h
  obtain ⟨hi, rfl⟩ := TokenStream.take_of_passes_ofTokens hp
  have hne : s.current.kind ≠ .finish := by simp [hlong.1]
  have htoken : tokens.items[s.index]? = some s.current := by
    rw [← TokenStream.peek?_of_passes_ofTokens hp, (hs.passes hp).peek_current hne]
  refine ⟨s.index, s.current, ⟨htoken, hlong, hsteps.short trivial, fun j hj => ?_⟩, hlength⟩
  rcases hj.lt_or_eq with hlt | rfl
  · exact hsteps.no_problem hi hlt
  · exact hsteps.no_problem_literal htoken hlong.1

/-- A parse that gives a tree or an error comes to a problem before every long
integer. -/
lemma Parser.problem_of_not_overruns (hs : (TokenStream.ofTokens tokens).Ordered)
    (h : ∀ n, ¬ (Parser.expr limit limit.toNat).Overruns (.ofTokens tokens) n) {i : ℕ} {t : Token}
    (ht : tokens.items[i]? = some t) (hlong : t.IsLongInteger) :
    ∃ j ≤ i, Problem limit.toNat tokens.items j := by
  have hi := (List.getElem?_eq_some_iff.mp ht).1
  rcases Rule.ends (Parser.expr limit limit.toNat) (.ofTokens tokens) with
    ⟨tree, rest, hg⟩ | ⟨g, hg⟩ | ⟨n, hn⟩
  · obtain ⟨-, -, ⟨q, hsteps, -⟩, hproblem⟩ := Parser.steps_root hs hg
    have hle := le_of_long (hsteps.short trivial) ht hlong
    exact ⟨rest.index, hle, Or.inl (hproblem (by omega))⟩
  · obtain ⟨w, s, q, hp, hsteps, ho⟩ := Parser.faults_root hs hg
    obtain ⟨-, rfl⟩ := TokenStream.take_of_passes_ofTokens hp
    exact ⟨s.index, le_of_long (hsteps.short trivial) ht hlong, (ho.reports hp hsteps).problem⟩
  · exact absurd hn (h n)

/-- **From the start of some tokens the parser overruns exactly if it reaches a
long integer.** -/
lemma Parser.overruns_root_iff (hs : (TokenStream.ofTokens tokens).Ordered) :
    (Parser.expr limit limit.toNat).Overruns (.ofTokens tokens) digits ↔
      ∃ i t, ReachesLong limit.toNat tokens.items i t ∧ (t.text.getD "").length = digits := by
  have hreaches : ∀ n, (Parser.expr limit limit.toNat).Overruns (.ofTokens tokens) n →
      ∃ i t, ReachesLong limit.toNat tokens.items i t ∧ (t.text.getD "").length = n := by
    intro n hn
    have hmeets := Parser.trips_expr limit limit.toNat limit.toNat hs explains_start
      (Nat.zero_add _) ⟨rfl, rfl, rfl, rfl⟩ hn
    exact hmeets.reachesLong hs
  refine ⟨hreaches digits, ?_⟩
  rintro ⟨i, t, ht, rfl⟩
  by_contra hnot
  have hnone : ∀ n, ¬ (Parser.expr limit limit.toNat).Overruns (.ofTokens tokens) n := by
    intro n hn
    obtain ⟨j, u, hu, rfl⟩ := hreaches n hn
    rw [ht.unique hu] at hn
    exact hnot hn
  obtain ⟨j, hj, hproblem⟩ := Parser.problem_of_not_overruns hs hnone ht.token ht.long
  exact ht.clear j hj hproblem

/-- How the parse of a source with tokens ends. -/
lemma parse_verdict_of_tokens (ht : tokenize source = .ok tokens) (limit : ℤ) :
    (parse limit source).verdict =
      match (Parser.expr limit limit.toNat (.ofTokens tokens)).outcome with
      | .success tree rest => .accepted ⟨tree, rest.consumedEnd⟩
      | .failure f => .rejected (.ofFailure f source.toList)
      | .overlong n => .overlong n := by
  simp only [parse, parseTokens, ht, Parser.root, Report.map, Report.ofRun]
  rcases (Parser.expr limit limit.toNat (.ofTokens tokens)).outcome with ⟨tree, rest⟩ | f | n <;>
    rfl

/-- **A parse is overlong exactly if it comes to a long integer**, that is, if no
token up to the first long integer has a problem. -/
theorem parse_overlong_iff (limit : ℤ) (source : String) (digits : ℕ) :
    (parse limit source).verdict = .overlong digits ↔
      ∃ tokens i t, tokenize source = .ok tokens ∧ ReachesLong limit.toNat tokens.items i t ∧
        (t.text.getD "").length = digits := by
  cases ht : tokenize source with
  | error e => simp [parse, parseTokens, ht, Report.map, Verdict.map]
  | ok tokens =>
      have hverdict : (parse limit source).verdict = .overlong digits ↔
          (Parser.expr limit limit.toNat).Overruns (.ofTokens tokens) digits := by
        rw [parse_verdict_of_tokens ht, Rule.Overruns]
        split <;> simp_all
      rw [hverdict, Parser.overruns_root_iff (tokenize_ordered ht)]
      simp

/-! ### Digits -/

namespace Lexeme

variable {text : List Char}

lemma number_digits (h : ∀ c ∈ text, c.isDigit = true) : number text = text := by
  have hdigits : digits text = text := List.takeWhile_eq_self_iff.mpr h
  simp [number, hdigits, fraction, exponent]

/-- Digits alone are one number. -/
lemma scan_digits (hne : text ≠ []) (h : ∀ c ∈ text, c.isDigit = true) :
    scan text = .token (.literal .number) text := by
  obtain ⟨c, rest, rfl⟩ := List.exists_cons_of_ne_nil hne
  rw [scan_digit (h c (by simp)), scanDigits, number_digits h, List.drop_length,
    if_neg (by decide)]

end Lexeme

/-- **More digits than are read are overlong**, under every limit. -/
theorem parse_digits (h : ∀ c ∈ source.toList, c.isDigit = true) (hlong : 4300 < source.length)
    (limit : ℤ) : (parse limit source).verdict = .overlong source.length := by
  have hne : source.toList ≠ [] := by
    rw [← List.length_pos_iff, String.length_toList]
    omega
  -- The source is one token.
  have htiles : Tiles [] .origin (source.toList ++ [])
      [Lexeme.tokenAt .origin (.literal .number) source.toList] := by
    refine .token ?_ (.nil _)
    rw [List.append_nil, List.append_nil]
    exact Lexeme.scan_digits hne h
  rw [List.append_nil] at htiles
  have htext : ((Lexeme.tokenAt .origin (.literal .number) source.toList).text.getD "") =
      source := String.ofList_toList
  have htoken : (Lexeme.tokenAt .origin (.literal .number) source.toList).IsLongInteger := by
    refine ⟨rfl, fun c hc => ?_, by rwa [htext]⟩
    rw [htext] at hc
    have hdigit := h c hc
    refine ⟨?_, ?_, ?_⟩ <;> rintro rfl <;> cases hdigit
  refine (parse_overlong_iff limit _ _).mpr
    ⟨_, 0, _, tokenize_of_tiles htiles, ⟨rfl, htoken, by simp, fun j hj => ?_⟩, by rw [htext]⟩
  obtain rfl := Nat.le_zero.mp hj
  exact Steps.no_problem_literal (.nil .start) rfl rfl

/-! ### Values and errors -/

/-- **A parse ends in a value or an error** exactly if there is a problem up to
every long integer of the source. -/
theorem parse_returns_iff (limit : ℤ) (source : String) :
    ((∃ parsed, (parse limit source).verdict = .accepted parsed) ∨
        ∃ error, (parse limit source).verdict = .rejected error) ↔
      ∀ tokens, tokenize source = .ok tokens → ∀ i t, tokens.items[i]? = some t →
        t.IsLongInteger → ∃ j ≤ i, Problem limit.toNat tokens.items j := by
  constructor
  · intro hreturns tokens ht i t htoken hlong
    by_contra hclear
    push Not at hclear
    obtain ⟨j, u, hreaches⟩ := exists_reachesLong htoken hlong hclear
    have hoverlong := (parse_overlong_iff limit source _).mpr ⟨tokens, j, u, ht, hreaches, rfl⟩
    rcases hreturns with ⟨parsed, h⟩ | ⟨error, h⟩ <;> cases hoverlong.symm.trans h
  · intro hproblem
    cases hv : (parse limit source).verdict with
    | accepted parsed => exact Or.inl ⟨parsed, rfl⟩
    | rejected error => exact Or.inr ⟨error, rfl⟩
    | overlong digits =>
        obtain ⟨tokens, i, t, ht, hreaches, -⟩ := (parse_overlong_iff limit source digits).mp hv
        obtain ⟨j, hj, hat⟩ := hproblem tokens ht i t hreaches.token hreaches.long
        exact absurd hat (hreaches.clear j hj)

/-- A parse of more digits than are read ends in no value and in no error. -/
theorem parse_not_returns_digits :
    ¬ ∀ (limit : ℤ) (source : String),
      (∃ parsed, (parse limit source).verdict = .accepted parsed) ∨
        ∃ error, (parse limit source).verdict = .rejected error := by
  intro hall
  have hdigits : ∀ c ∈ (String.ofList (List.replicate 4301 '1')).toList, c.isDigit = true := by
    intro c hc
    rw [String.toList_ofList] at hc
    rw [List.eq_of_mem_replicate hc]
    rfl
  have hlong : 4300 < (String.ofList (List.replicate 4301 '1')).length := by
    rw [String.length_ofList, List.length_replicate]
    omega
  have hoverlong := parse_digits hdigits hlong 50
  rcases hall 50 (String.ofList (List.replicate 4301 '1')) with ⟨parsed, h⟩ | ⟨error, h⟩ <;>
    cases hoverlong.symm.trans h

end ArrayExpr
