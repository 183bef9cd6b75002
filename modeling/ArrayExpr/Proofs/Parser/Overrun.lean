/-
Parses without overlong integers.

* `TokenStream.Short`: no overlong integer stands ahead;
* `Rule.Short`: in front of such a stream a rule does not overrun, and leaves
  no overlong integer ahead; there is one lemma for each way to make rules from
  rules;
* `Parser.short_expr`: the rule for expressions is short.
-/
import ArrayExpr.Proofs.Parser.Reading

namespace ArrayExpr

/-- No overlong integer stands ahead. -/
structure TokenStream.Short (s : TokenStream) : Prop where
  ahead : ∀ t ∈ s.ahead, ¬ t.IsLongInteger
  finish : ¬ s.finish.IsLongInteger

/-- The token ahead is one of the short ones, also where it is the closing one. -/
lemma TokenStream.Short.current {s : TokenStream} (h : s.Short) : ¬ s.current.IsLongInteger := by
  rw [TokenStream.current]
  cases hs : s.ahead with
  | nil => exact h.finish
  | cons t rest => exact h.ahead t (by simp [hs])

/-- Fewer tokens ahead are short, too. -/
lemma TokenStream.Short.advance {s : TokenStream} (h : s.Short) : s.advance.Short := by
  rw [TokenStream.advance]
  split
  · exact h
  · next t rest hs => exact ⟨fun u hu => h.ahead u (by simp [hs, hu]), h.finish⟩

namespace Rule

variable {α β σ : Type}

/-- Where no overlong integer stands ahead the rule does not overrun, and none
stands ahead of where it stops. -/
structure Short (r : Rule α) : Prop where
  ends : ∀ {s n}, s.Short → ¬ r.Overruns s n
  keeps : ∀ {s a s'}, s.Short → r.Gives s a s' → s'.Short

variable {r : Rule α}

/-- A value without a rule reads nothing. -/
lemma short_pure (a : α) : (pure a : Rule α).Short :=
  ⟨fun _ => not_overruns_pure, fun hs h => by rwa [(gives_pure.mp h).2]⟩

/-- The second rule must be short for the values that the first one gives. -/
lemma Short.bind_of_gives {f : α → Rule β} (hr : r.Short)
    (hf : ∀ s a s', r.Gives s a s' → (f a).Short) : (r >>= f).Short where
  ends := fun hs h => by
    rcases overruns_bind.mp h with h | ⟨a, s₁, ha, h⟩
    · exact hr.ends hs h
    · exact (hf _ a _ ha).ends (hr.keeps hs ha) h
  keeps := fun hs h => by
    obtain ⟨a, s₁, ha, h⟩ := gives_bind.mp h
    exact (hf _ a _ ha).keeps (hr.keeps hs ha) h

/-- The second rule starts where the first stops, on a stream that is still
short. -/
lemma Short.bind {f : α → Rule β} (hr : r.Short) (hf : ∀ a, (f a).Short) : (r >>= f).Short :=
  hr.bind_of_gives fun _ a _ _ => hf a

/-- A look at the stream leaves it as it is. -/
lemma short_stream : stream.Short :=
  ⟨fun _ => not_overruns_stream, fun hs h => by rwa [(gives_stream.mp h).2]⟩

/-- So does a look at the current token. -/
lemma short_current : current.Short :=
  ⟨fun _ => not_overruns_current, fun hs h => by rwa [(gives_current.mp h).2]⟩

/-- A step leaves a short stream. -/
lemma short_advance : advance.Short :=
  ⟨fun _ => not_overruns_advance, fun hs h => by rw [gives_advance.mp h]; exact hs.advance⟩

/-- A visit reads nothing. -/
lemma short_visit (name : String) : (visit name).Short :=
  ⟨fun _ => not_overruns_visit, fun hs h => by rwa [gives_visit.mp h]⟩

/-- A failure is no overrun. -/
lemma short_fail (e : TokenStream → Failure) : (fail e : Rule α).Short :=
  ⟨fun _ => not_overruns_fail, fun _ h => absurd h not_gives_fail⟩

/-- A token that is asked for is read or refused; its text is not looked at. -/
lemma short_token (kind : Kind) (what : Option String) (opener : Option Token) :
    (token kind what opener).Short :=
  ⟨fun _ => not_overruns_token, fun hs h => by
    obtain ⟨-, -, rfl⟩ := gives_token.mp h
    exact hs.advance⟩

/-- An attempt overruns only where its rule does, and where that declines the
stream stays. -/
lemma Short.attempt (hr : r.Short) : (attempt r).Short where
  ends := fun hs h => hr.ends hs (overruns_attempt.mp h)
  keeps := fun hs h => by
    rcases gives_attempt.mp h with ⟨a, -, h⟩ | ⟨-, rfl, -⟩
    · exact hr.keeps hs h
    · exact hs

/-- A name for what was expected changes failures only. -/
lemma Short.called (what : String) (hr : r.Short) : (called what r).Short :=
  ⟨fun hs h => hr.ends hs (overruns_called.mp h), fun hs h => hr.keeps hs (gives_called.mp h)⟩

/-- A span changes the value only. -/
lemma Short.spanned (hr : r.Short) : (spanned r).Short :=
  ⟨fun hs h => hr.ends hs (overruns_spanned.mp h),
    fun hs h => hr.keeps hs (gives_spanned.mp h).1⟩

/-- The name of an alternative changes failures only. -/
lemma Short.alternative (name : String) (hr : r.Short) : (alternative name r).Short :=
  ⟨fun hs h => hr.ends hs (overruns_alternative.mp h),
    fun hs h => hr.keeps hs (gives_alternative.mp h)⟩

/-- A choice tries its alternatives on the same stream, so each of them must
keep to short ones. -/
lemma short_choice {first : String × Rule α} {others : List (String × Rule α)}
    (h : ∀ r ∈ first :: others, r.2.Short) : (choice first others).Short := by
  induction others generalizing first with
  | nil => exact (h first (by simp)).alternative first.1
  | cons next others ih =>
      have hfirst := h first (by simp)
      have hothers := ih fun r hr => h r (List.mem_cons_of_mem _ hr)
      refine ⟨fun {s n} hs ho => ?_, fun hs hg => ?_⟩
      · obtain ⟨r, hr, ho⟩ := overruns_choice ho
        exact (h r hr).ends hs ho
      · rcases gives_choice_cons.mp hg with h | ⟨-, -, -, h⟩
        · exact hfirst.keeps hs h
        · exact hothers.keeps hs h

/-- A repetition: by induction on the fuel, each round hands a short stream on. -/
lemma short_collectWithin {step : σ → Rule (Option (β × σ))} (h : ∀ state, (step state).Short)
    (fuel : List Token) (state : σ) : (collectWithin step fuel state).Short := by
  induction fuel generalizing state with
  | nil =>
      rw [collectWithin]
      refine (h state).bind fun next => ?_
      rcases next with _ | ⟨b, next⟩ <;> exact short_pure _
  | cons t fuel ih =>
      rw [collectWithin]
      refine (h state).bind fun next => ?_
      rcases next with _ | ⟨b, next⟩
      · exact short_pure _
      · exact (ih next).bind fun rest => short_pure _

/-- A repetition with fuel for all tokens ahead. -/
lemma short_collect {step : σ → Rule (Option (β × σ))} (h : ∀ state, (step state).Short)
    (state : σ) : (collect step state).Short :=
  ⟨fun {s _} hs ho => (short_collectWithin h s.ahead state).ends hs ho,
    fun {s _ _} hs hg => (short_collectWithin h s.ahead state).keeps hs hg⟩

/-- A repetition without state. -/
lemma Short.many {step : Rule (Option β)} (h : step.Short) : (many step).Short :=
  short_collect (fun _ => h.bind fun _ => short_pure _) ()

/-- A list: its items are the only rules in it that may overrun. -/
lemma Short.separatedList {name : String} {style : ListStyle} {separator : Kind}
    (hr : r.Short) : (separatedList name style separator r).Short := by
  have hitem : ∀ may, (itemWhere may r).Short := fun may => by
    cases may with
    | true => exact hr.attempt
    | false => exact hr.bind fun _ => short_pure _
  have hfurther : (furtherItem style separator r).Short :=
    short_current.bind fun t => by
      split_ifs
      · exact short_advance.bind fun _ => hitem _
      · exact short_pure _
  refine (short_visit name).bind fun _ => (hitem _).bind fun first => ?_
  cases first with
  | none => exact short_pure _
  | some a => exact hfurther.many.bind fun _ => short_pure _

end Rule

namespace Parser

open Rule

/-- The rule inside brackets, if there is one, is short. -/
def ShortScope (scope : Scope) : Prop := ∀ e, scope.inner = some e → e.Short

variable {scope : Scope}

/-- A pair of brackets: the rule between them is told that expressions keep to
short streams. -/
lemma short_bracketed {α : Type} (hi : ShortScope scope) {opening closing : Kind}
    {inside : Rule Expr → Rule α} (h : ∀ e : Rule Expr, e.Short → (inside e).Short) :
    (scope.bracketed opening closing inside).Short := by
  have hdescend : scope.descend.Short := by
    rw [Scope.descend]
    split
    · exact short_pure _
    · exact short_fail _
  refine ((short_token opening none none).bind fun o =>
    hdescend.bind_of_gives fun s e s' he => ?_).spanned
  exact (h e (hi e (gives_descend.mp he).1)).bind fun a =>
    (short_token closing none (some o)).bind fun _ => short_pure _

/-- A literal overruns where it is a long integer. -/
lemma overruns_literal {s : TokenStream} {n : ℕ} (h : literal.Overruns s n) :
    s.current.IsLongInteger ∧ (s.current.text.getD "").length = n := by
  rw [literal, overruns_bind_current] at h
  cases hk : s.current.kind with
  | literal kind =>
      simp only [hk, overruns_bind, overruns_spanned, not_overruns_current, not_overruns_advance,
        not_overruns_pure, gives_text, and_false, exists_false, or_false, false_or] at h
      obtain ⟨p, s₁, ⟨rfl, rfl⟩, h⟩ := h
      rcases ho : Literal.overlong? ⟨kind, s.current.text.getD ""⟩ with _ | digits
      · rw [ho] at h
        exact absurd h not_overruns_pure
      · rw [ho, overruns_overlong] at h
        refine ⟨?_, ?_⟩
        · by_contra hshort
          rw [(overlong?_eq_none_iff hk).mpr hshort] at ho
          cases ho
        · rw [Literal.overlong?, Option.ite_none_right_eq_some] at ho
          rw [h, ← Option.some.inj ho.2]
  | _ => simp [hk] at h

/-- A literal is the only rule that overruns of itself, and it does so at a long
integer only. -/
lemma short_literal : literal.Short where
  ends := fun hs h => hs.current (overruns_literal h).1
  keeps := fun hs h => by
    obtain ⟨kind, -, -, -, rfl⟩ := gives_literal.mp h
    exact hs.advance

/-- A name is read whatever its length. -/
lemma short_name : name.Short :=
  short_current.bind fun t => by
    split_ifs
    · exact (short_current.bind fun _ => short_advance.bind fun _ => short_pure _).spanned.bind
        fun _ => short_pure _
    · exact short_fail _

/-- An operand, by its four alternatives. -/
lemma short_operand (hi : ShortScope scope) : (operand scope).Short := by
  have hgroup : (group scope).Short :=
    (short_bracketed hi fun _ he => he).bind fun _ => short_pure _
  have harray : (array scope).Short :=
    (short_visit _).bind fun _ => (short_bracketed hi fun e he =>
      Short.separatedList ((short_visit _).bind fun _ => he.separatedList)).bind
        fun _ => short_pure _
  refine (short_visit _).bind fun _ => Short.called _ (short_choice ?_)
  simp only [List.forall_mem_cons]
  exact ⟨short_literal, short_name, hgroup, harray, by simp⟩

/-- A suffix, by its three kinds. -/
lemma short_suffix? (hi : ShortScope scope) : (suffix? scope).Short := by
  have hcall : (callSuffix scope).Short :=
    (short_visit _).bind fun _ => short_bracketed hi fun _ he => he.separatedList
  have hindex : (indexSuffix scope).Short :=
    (short_visit _).bind fun _ => (short_bracketed hi fun _ he => he.separatedList).bind
      fun _ => short_pure _
  have hfield : fieldSuffix.Short :=
    ((short_token _ _ _).bind fun _ => short_token _ _ _).spanned.bind fun _ => short_pure _
  refine short_current.bind fun t => ?_
  split
  · exact hcall.bind fun _ => short_pure _
  · exact hindex.bind fun _ => short_pure _
  · exact hfield.bind fun _ => short_pure _
  · exact short_pure _

/-- An operator with its right side. -/
lemma short_link? {ω : Type} (op? : Kind → Option ω) {r : Rule Expr} (hr : r.Short) :
    (link? op? r).Short :=
  short_current.bind fun t => by
    split
    · exact short_pure _
    · exact short_advance.bind fun _ => hr.bind fun _ => short_pure _

/-- An operand under minus signs; the signs are single tokens. -/
lemma short_signed (hi : ShortScope scope) : (signed scope).Short := by
  have hsign : sign?.Short := short_current.bind fun t => by
    split_ifs
    · exact short_stream.bind fun _ => short_advance.bind fun _ => short_pure _
    · exact short_pure _
  have hsuffixed : (suffixed scope).Short :=
    (short_visit _).bind fun _ => (short_operand hi).bind fun _ =>
      (short_suffix? hi).many.bind fun _ => short_pure _
  exact (short_visit _).bind fun _ => hsign.many.bind fun _ => hsuffixed.bind fun _ => short_pure _

/-- Operands with operators between them. -/
lemma short_chain {ω : Type} {name : String} (op? : Kind → Option ω) {r : Rule Expr} (hr : r.Short)
    (k : Expr → List (ω × Expr) → Expr) :
    Rule.Short (do
      visit name
      let first ← r
      let links ← many (link? op? r)
      return k first links) :=
  (short_visit _).bind fun _ => hr.bind fun _ => (short_link? op? hr).many.bind
    fun _ => short_pure _

/-- The three levels of operators between operands. -/
lemma short_comparison (hi : ShortScope scope) : (comparison scope).Short :=
  short_chain _ (short_chain _ (short_chain _ (short_signed hi) _) _) _

/-- An assignment, by its sides. -/
lemma short_assignment (hi : ShortScope scope) : (assignment scope).Short := by
  have hside : (side scope).Short :=
    short_current.bind fun _ => (short_comparison hi).bind fun _ => short_pure _
  have hfurther : ∀ before, (furtherSide scope before).Short := fun before =>
    short_current.bind fun t => by
      split_ifs
      · exact short_advance.bind fun _ => hside.bind fun _ => short_pure _
      · exact short_fail _
      · exact short_pure _
  exact (short_visit _).bind fun _ => hside.bind fun _ =>
    (short_collect hfurther _).bind fun _ => short_pure _

/-- **Where no overlong integer stands ahead the parser does not overrun.** -/
theorem short_expr (limit : ℤ) (n : ℕ) : (expr limit n).Short := by
  induction n with
  | zero => exact short_assignment fun e he => by cases he
  | succ n ih => exact short_assignment fun e he => by cases he; exact ih

end Parser

end ArrayExpr
