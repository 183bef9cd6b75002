/-
Rules that count, beside rules that keep a log.

* `Stats.count_add`: what a log adds to the count of a rule;
* `CountingRule.Counts`: a rule that counts ends as one with a log does, whatever the
  counts are, and adds its log to the counts under one number; there is one lemma for
  each way to make rules from rules;
* `counts_descend`, `counts_bracketed`: the context inside a bracket counts under the
  number of the one outside, and has the room that the plain scope has.
-/
import ArrayExpr.Rule.Counting
import ArrayExpr.Parser.Expression
import Mathlib.Data.List.Basic

namespace ArrayExpr

/-! ### Counts and logs -/

/-- One occurrence more is seen under its own name only. -/
lemma Counter.get_increment (counter : Counter) (name rule : String) :
    (counter.increment name).get rule = counter.get rule + if name = rule then 1 else 0 := by
  obtain ⟨entries⟩ := counter
  simp only [increment, get]
  induction entries with
  | nil =>
      by_cases h : name = rule
      · simp [bump, h]
      · have hne : (rule == name) = false := beq_eq_false_iff_ne.mpr (Ne.symm h)
        simp [bump, List.lookup_cons, h, hne]
  | cons entry entries ih =>
      obtain ⟨other, n⟩ := entry
      rw [bump]
      by_cases hother : rule = other
      · subst hother
        by_cases hname : rule = name
        · simp [hname]
        · simp [hname, Ne.symm hname]
      · have hne : (rule == other) = false := beq_eq_false_iff_ne.mpr hother
        by_cases hname : other = name
        · subst hname
          simp [List.lookup_cons, hne, Ne.symm hother]
        · simpa [hname, List.lookup_cons, hne] using ih

namespace Stats

/-- A call adds one to the count of its rule. -/
lemma count_hit (stats : Stats) (name rule : String) :
    (stats.hit name).count rule = stats.count rule + if name = rule then 1 else 0 :=
  Counter.get_increment _ _ _

/-- A log adds as much to the count of a rule as it has visits to that rule. -/
lemma count_add (stats : Stats) (visits : List Visit) (rule : String) :
    (stats.add visits).count rule = stats.count rule + visits.countP (·.rule = rule) := by
  induction visits generalizing stats with
  | nil => rfl
  | cons v visits ih =>
      rw [add, List.foldl_cons, ← add, ih, count_hit, List.countP_cons]
      simp only [decide_eq_true_eq]
      omega

/-- Nothing was called yet. -/
lemma count_empty (rule : String) : empty.count rule = 0 := rfl

end Stats

namespace Counters

variable {counters : Counters} {number : ℕ} {visits more : List Visit}

/-- No visits change no counts. -/
@[simp] lemma add_nil : counters.add number [] = counters := rfl

/-- Visits may be added in two parts. -/
lemma add_append :
    counters.add number (visits ++ more) = (counters.add number visits).add number more :=
  List.foldl_append

/-- A call changes the counts under its number only. -/
lemma hit_between (before after : List Stats) (stats : Stats) (rule : String) :
    (⟨before ++ stats :: after⟩ : Counters).hit before.length rule =
      ⟨before ++ stats.hit rule :: after⟩ := by
  refine congrArg Counters.mk ?_
  induction before with
  | nil => rfl
  | cons first before ih =>
      rw [List.length_cons, List.cons_append, List.modify_succ_cons, ih, List.cons_append]

/-- A log changes the counts under its number only. -/
lemma add_between (before after : List Stats) (stats : Stats) (visits : List Visit) :
    (⟨before ++ stats :: after⟩ : Counters).add before.length visits =
      ⟨before ++ stats.add visits :: after⟩ := by
  induction visits generalizing stats with
  | nil => rfl
  | cons v visits ih => rw [add, List.foldl_cons, ← add, hit_between, ih]; rfl

/-- Under its number an owner reads its own counts. -/
lemma read_between (before after : List Stats) (stats : Stats) :
    (⟨before ++ stats :: after⟩ : Counters).read before.length = stats := by
  simp [read]

end Counters

/-! ### Contexts and scopes -/

namespace Context

/-- The plain scope with the room of a context. -/
def scope (ctx : Context) : Scope := .ofRoom ctx.limit ctx.room

/-- Inside a bracket the plain scope reads what there is room for in the context
there. -/
lemma scope_descend (ctx : Context) (h : ctx.depth < ctx.limit) :
    ctx.scope.descend = pure (Parser.expr ctx.limit ctx.deeper.room) := by
  have hroom : ctx.room = ctx.deeper.room + 1 := by
    simp only [room, deeper]
    omega
  rw [scope, hroom]
  rfl

/-- Where the limit is reached neither may be entered. -/
lemma scope_descend_full (ctx : Context) (h : ¬ ctx.depth < ctx.limit) :
    ctx.scope.descend = Rule.fail fun s => .ofKind .nestingTooDeep s (.nesting ctx.limit) := by
  have hroom : ctx.room = 0 := by
    simp only [room]
    omega
  rw [scope, hroom]
  rfl

end Context

namespace CountingRule

/-! ### Rules that count -/

/-- A rule ends as the plain one does, whatever the counts are, and adds the log of
that one to the counts under a number. -/
def Counts {α : Type} (r : CountingRule α) (plain : Rule α) (number : ℕ) : Prop :=
  ∀ s counters, r s counters = ((plain s).outcome, counters.add number (plain s).visits)

variable {α β σ : Type} {r : CountingRule α} {plain : Rule α} {number : ℕ}

/-! ### Rules in a row -/

/-- A value counts nothing. -/
lemma counts_pure (a : α) : (pure a : CountingRule α).Counts (pure a) number := fun _ _ => rfl

/-- **Rules in a row**: the second one goes on with the counts as the first one left
them. -/
lemma Counts.bind {f : α → CountingRule β} {f' : α → Rule β} (hr : r.Counts plain number)
    (hf : ∀ a, (f a).Counts (f' a) number) : (r >>= f).Counts (plain >>= f') number := by
  intro s counters
  rw [bind_run, hr s counters, Rule.bind_run]
  obtain ⟨outcome, visits⟩ := plain s
  cases outcome with
  | success a rest =>
      dsimp only
      rw [hf a rest]
      simp only [Run.afterVisits, Run.joinVisits_eq, Counters.add_append]
  | failure g => rfl
  | overlong n => rfl

/-! ### Single steps -/

/-- A look at the stream counts nothing. -/
lemma counts_stream : stream.Counts Rule.stream number := fun _ _ => rfl

/-- Nor does a look at the current token. -/
lemma counts_current : current.Counts Rule.current number := fun _ _ => rfl

/-- A step counts nothing. -/
lemma counts_advance : advance.Counts Rule.advance number := fun _ _ => rfl

/-- A failure counts nothing. -/
lemma counts_fail (f : TokenStream → Failure) :
    (fail f : CountingRule α).Counts (Rule.fail f) number := fun _ _ => rfl

lemma counts_overlong (n : ℕ) :
    (overlong n : CountingRule α).Counts (Rule.overlong n) number := fun _ _ => rfl

/-- A call that is counted is a visit of the log. -/
lemma counts_hit (ctx : Context) (rule : String) :
    (hit ctx rule).Counts (Rule.visit rule) ctx.counter := fun _ _ => rfl

/-- A token counts nothing. -/
lemma counts_token (kind : Kind) (expected : Option String) (opener : Option Token) :
    (token kind expected opener).Counts (Rule.token kind expected opener) number := by
  intro s counters
  simp only [token, Rule.token]
  split
  · rfl
  · cases opener with
    | none => rfl
    | some opener => dsimp only; split <;> rfl

/-! ### Rules from rules -/

/-- The calls of a rule that was missing stay counted. -/
lemma Counts.attempt (h : r.Counts plain number) :
    (attempt r).Counts (Rule.attempt plain) number := by
  intro s counters
  rw [CountingRule.attempt, h s counters, Rule.attempt]
  obtain ⟨outcome, visits⟩ := plain s
  cases outcome with
  | failure g => dsimp only; split <;> rfl
  | _ => rfl

/-- A name for what was expected keeps the counts. -/
lemma Counts.called (h : r.Counts plain number) (what : String) :
    (called what r).Counts (Rule.called what plain) number := by
  intro s counters
  rw [CountingRule.called, h s counters, Rule.called]
  obtain ⟨outcome, visits⟩ := plain s
  cases outcome <;> rfl

/-- So does a span. -/
lemma Counts.spanned (h : r.Counts plain number) :
    (spanned r).Counts (Rule.spanned plain) number :=
  counts_stream.bind fun _ => h.bind fun _ => counts_stream.bind fun _ => counts_pure _

/-- So does the name of an alternative. -/
lemma Counts.alternative (h : r.Counts plain number) (name : String) :
    (alternative name r).Counts (Rule.alternative name plain) number := by
  intro s counters
  rw [CountingRule.alternative, h s counters, Rule.alternative]
  obtain ⟨outcome, visits⟩ := plain s
  cases outcome <;> rfl

/-- The calls of alternatives that failed stay counted. -/
lemma counts_choice {first : String × CountingRule α} {first' : String × Rule α}
    {others : List (String × CountingRule α)} {others' : List (String × Rule α)}
    (h : first.1 = first'.1 ∧ first.2.Counts first'.2 number)
    (hothers : List.Forall₂ (fun p p' => p.1 = p'.1 ∧ p.2.Counts p'.2 number) others others') :
    (choice first others).Counts (Rule.choice first' others') number := by
  induction hothers generalizing first first' with
  | nil =>
      rw [choice, Rule.choice, h.1]
      exact h.2.alternative _
  | @cons next next' others others' hnext _ ih =>
      intro s counters
      simp only [choice, Rule.choice, h.1]
      rw [h.2.alternative first'.1 s counters]
      obtain ⟨outcome, visits⟩ := Rule.alternative first'.1 first'.2 s
      cases outcome with
      | success a rest => rfl
      | overlong n => rfl
      | failure g =>
          dsimp only
          split
          · rw [ih hnext s]
            obtain ⟨outcome', more⟩ := Rule.choice next' others' s
            cases outcome' <;>
              simp only [Run.afterVisits, Run.joinVisits_eq, Counters.add_append]
          · rfl

/-! ### Repetition -/

/-- A repetition, by induction on its fuel: the counts of a round are handed to
the next. -/
lemma counts_collectWithin {step : σ → CountingRule (Option (β × σ))}
    {step' : σ → Rule (Option (β × σ))} (h : ∀ state, (step state).Counts (step' state) number)
    (fuel : List Token) (state : σ) :
    (collectWithin step fuel state).Counts (Rule.collectWithin step' fuel state) number := by
  induction fuel generalizing state with
  | nil =>
      rw [collectWithin, Rule.collectWithin]
      refine (h state).bind fun next => ?_
      rcases next with _ | ⟨b, next⟩ <;> exact counts_pure _
  | cons t fuel ih =>
      rw [collectWithin, Rule.collectWithin]
      refine (h state).bind fun next => ?_
      rcases next with _ | ⟨b, next⟩
      · exact counts_pure _
      · exact (ih next).bind fun _ => counts_pure _

lemma counts_collect {step : σ → CountingRule (Option (β × σ))}
    {step' : σ → Rule (Option (β × σ))} (h : ∀ state, (step state).Counts (step' state) number)
    (state : σ) : (collect step state).Counts (Rule.collect step' state) number :=
  fun s counters => counts_collectWithin h s.ahead state s counters

/-- A repetition without state. -/
lemma Counts.many {step : CountingRule (Option β)} {step' : Rule (Option β)}
    (h : step.Counts step' number) : (many step).Counts (Rule.many step') number :=
  counts_collect (fun _ => h.bind fun _ => counts_pure _) ()

/-! ### Lists -/

/-- An item that is read where the style of the list allows it. -/
lemma Counts.itemWhere (h : r.Counts plain number) (may : Bool) :
    (itemWhere may r).Counts (Rule.itemWhere may plain) number := by
  cases may with
  | true => exact h.attempt
  | false => exact h.bind fun _ => counts_pure _

/-- A separator with the item behind it. -/
lemma Counts.furtherItem (h : r.Counts plain number) (style : ListStyle) (separator : Kind) :
    (furtherItem style separator r).Counts (Rule.furtherItem style separator plain) number :=
  counts_current.bind fun t => by
    split_ifs
    · exact counts_advance.bind fun _ => h.itemWhere _
    · exact counts_pure _

/-- A list counts its call and those of its items in one place. -/
lemma Counts.separatedList {ctx : Context} (h : r.Counts plain ctx.counter) (name : String)
    (style : ListStyle) (separator : Kind) :
    (separatedList ctx name style separator r).Counts
      (Rule.separatedList name style separator plain) ctx.counter :=
  (counts_hit ctx name).bind fun _ => (h.itemWhere style.empty).bind fun first => by
    cases first with
    | none => exact counts_pure _
    | some first => exact (h.furtherItem style separator).many.bind fun _ => counts_pure _

/-! ### Brackets -/

/-- The context inside a bracket counts under the same number, and has the room that
the plain scope leaves inside it. -/
lemma counts_descend {ctx : Context} {k : ctx.Inner → CountingRule α} {k' : Rule Expr → Rule α}
    (h : ∀ hroom, (k ⟨ctx.deeper, hroom⟩).Counts (k' (Parser.expr ctx.limit ctx.deeper.room))
      ctx.deeper.counter) :
    (descend ctx >>= k).Counts (ctx.scope.descend >>= k') ctx.counter := by
  intro s counters
  rw [bind_run, descend]
  by_cases hroom : ctx.depth < ctx.limit
  · rw [dif_pos hroom, ctx.scope_descend hroom, pure_bind]
    exact h _ s counters
  · rw [dif_neg hroom, ctx.scope_descend_full hroom]
    rfl

/-- A bracket with its inside counts what stands inside in the same place. -/
lemma counts_bracketed {ctx : Context} {inside : ctx.Inner → CountingRule α}
    {inside' : Rule Expr → Rule α} (opening closing : Kind)
    (h : ∀ hroom, (inside ⟨ctx.deeper, hroom⟩).Counts
      (inside' (Parser.expr ctx.limit ctx.deeper.room)) ctx.deeper.counter) :
    (bracketed ctx opening closing inside).Counts (ctx.scope.bracketed opening closing inside')
      ctx.counter := by
  have hinside : ∀ opener hroom,
      (inside ⟨ctx.deeper, hroom⟩ >>= fun a =>
          token closing none (some opener) >>= fun _ => pure a).Counts
        (inside' (Parser.expr ctx.limit ctx.deeper.room) >>= fun a =>
          Rule.token closing none (some opener) >>= fun _ => pure a) ctx.deeper.counter :=
    fun opener hroom => (h hroom).bind fun _ => (counts_token _ _ _).bind fun _ => counts_pure _
  exact ((counts_token _ _ _).bind fun opener => counts_descend (hinside opener)).spanned

end CountingRule

end ArrayExpr
