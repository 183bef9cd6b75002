/-
How rules end.

* `Rule.Gives`, `Rule.Refuses`, `Rule.Overruns`: the three ways in which a rule
  ends in front of a stream; exactly one of them happens (`Rule.ends`);
* `gives_bind`, `refuses_bind`, `overruns_bind`: how two rules in a row end,
  and the same for every single step and for every way to make rules from
  rules;
* `gives_parts`, `refuses_parts`, `overruns_parts`: a rule that is entered and
  reads two parts in a row ends as they do;
* `Rule.Reaches`, `Rule.Rounds`: some rounds of a repetition; a repetition
  whose rounds all read a token gives what its rounds give (`gives_collect`,
  `gives_many`), and fails or overruns only in a round of its own
  (`refuses_collect`, `refuses_many`, `overruns_collect`, `overruns_many`).

Visits play no part here.
-/
import ArrayExpr.Rule.SeparatedList
import ArrayExpr.Rule.Choice
import ArrayExpr.Proofs.Rule.Stream

namespace ArrayExpr

namespace Failure

/-! ### Failures of alternatives -/

/-- The name of an alternative leaves the kind of a failure as it is. -/
lemma inAlternative_kind (g : Failure) (name : String) : (g.inAlternative name).kind = g.kind := by
  rw [inAlternative]
  split
  · split <;> rfl
  · rfl

/-- It leaves the place as it is. -/
lemma inAlternative_offset (g : Failure) (name : String) :
    (g.inAlternative name).offset = g.offset := by
  rw [inAlternative]
  split
  · split <;> rfl
  · rfl

/-- It leaves what was expected as it is. -/
lemma inAlternative_expected (g : Failure) (name : String) :
    (g.inAlternative name).expected = g.expected := by
  rw [inAlternative]
  split
  · split <;> rfl
  · rfl

/-- It does not decide whether a failure can be recovered from. -/
lemma inAlternative_isRecoverable (g : Failure) (name : String) :
    (g.inAlternative name).isRecoverable = g.isRecoverable := by
  rw [isRecoverable, isRecoverable, inAlternative_kind]

/-- It does not decide whether a rule has declined. -/
lemma inAlternative_declinesAt (g : Failure) (name : String) (s : TokenStream) :
    (g.inAlternative name).declinesAt s = g.declinesAt s := by
  rw [declinesAt, declinesAt, inAlternative_isRecoverable, inAlternative_offset]

end Failure

namespace Rule

variable {α β σ : Type} {r : Rule α} {f : α → Rule β} {s s' s₁ : TokenStream} {a a' : α} {b : β}
  {g g' : Failure} {n m : ℕ}

/-- The rule succeeds in front of `s` with a value, and stops in front of `s'`. -/
def Gives (r : Rule α) (s : TokenStream) (a : α) (s' : TokenStream) : Prop :=
  (r s).outcome = .success a s'

/-- The rule fails in front of `s`. -/
def Refuses (r : Rule α) (s : TokenStream) (g : Failure) : Prop :=
  (r s).outcome = .failure g

/-- The rule meets an integer of too many digits. -/
def Overruns (r : Rule α) (s : TokenStream) (n : ℕ) : Prop :=
  (r s).outcome = .overlong n

/-- A rule gives a value, refuses its input, or overruns. -/
lemma ends (r : Rule α) (s : TokenStream) :
    (∃ a s', r.Gives s a s') ∨ (∃ g, r.Refuses s g) ∨ ∃ n, r.Overruns s n := by
  cases h : (r s).outcome with
  | success a s' => exact Or.inl ⟨a, s', h⟩
  | failure g => exact Or.inr (Or.inl ⟨g, h⟩)
  | overlong n => exact Or.inr (Or.inr ⟨n, h⟩)

/-- A rule refuses with one failure. -/
lemma Refuses.unique (h : r.Refuses s g) (h' : r.Refuses s g') : g = g' := by
  rw [Refuses] at h h'
  simpa using h.symm.trans h'

/-- A rule overruns with one length. -/
lemma Overruns.unique (h : r.Overruns s n) (h' : r.Overruns s m) : n = m := by
  rw [Overruns] at h h'
  simpa using h.symm.trans h'

/-- A rule that gives a value does not refuse. -/
lemma Gives.not_refuses (h : r.Gives s a s') : ¬ r.Refuses s g := by
  rw [Gives] at h
  simp [Refuses, h]

/-- It does not overrun either. -/
lemma Gives.not_overruns (h : r.Gives s a s') : ¬ r.Overruns s n := by
  rw [Gives] at h
  simp [Overruns, h]

/-- A rule that refuses does not overrun. -/
lemma Refuses.not_overruns (h : r.Refuses s g) : ¬ r.Overruns s n := by
  rw [Refuses] at h
  simp [Overruns, h]

/-! ### Rules in a row -/

/-- Visits made before do not change how a rule ends. -/
@[simp] lemma afterVisits_outcome (visits : List Visit) (run : Run α) :
    (run.afterVisits visits).outcome = run.outcome := rfl

/-- A value without a rule is given where the rule begins. -/
@[simp] lemma gives_pure : (pure a : Rule α).Gives s a' s' ↔ a' = a ∧ s' = s := by
  simp [Gives, eq_comm]

@[simp] lemma not_refuses_pure : ¬ (pure a : Rule α).Refuses s g := by simp [Refuses]

@[simp] lemma not_overruns_pure : ¬ (pure a : Rule α).Overruns s n := by simp [Overruns]

/-- **Two rules in a row give what the second gives**, from where the first
ends. -/
@[simp] lemma gives_bind :
    (r >>= f).Gives s b s' ↔ ∃ a s₁, r.Gives s a s₁ ∧ (f a).Gives s₁ b s' := by
  simp only [Gives, bind_run]
  rcases r s with ⟨⟨a, rest⟩ | e | n, visits⟩ <;> simp

/-- They refuse where the first does, or where the second does behind it. -/
@[simp] lemma refuses_bind :
    (r >>= f).Refuses s g ↔
      r.Refuses s g ∨ ∃ a s₁, r.Gives s a s₁ ∧ (f a).Refuses s₁ g := by
  simp only [Gives, Refuses, bind_run]
  rcases r s with ⟨⟨a, rest⟩ | e | n, visits⟩ <;> simp

/-- They overrun in one of these two places, too. -/
@[simp] lemma overruns_bind :
    (r >>= f).Overruns s n ↔
      r.Overruns s n ∨ ∃ a s₁, r.Gives s a s₁ ∧ (f a).Overruns s₁ n := by
  simp only [Gives, Overruns, bind_run]
  rcases r s with ⟨⟨a, rest⟩ | e | n, visits⟩ <;> simp

/-- A function of a value is given with the value. -/
@[simp] lemma gives_map {k : α → β} :
    (k <$> r).Gives s b s' ↔ ∃ a, b = k a ∧ r.Gives s a s' := by
  rw [map_eq_pure_bind]
  simp only [gives_bind, gives_pure]
  constructor
  · rintro ⟨a, s₁, h, rfl, rfl⟩
    exact ⟨a, rfl, h⟩
  · rintro ⟨a, rfl, h⟩
    exact ⟨a, s', h, rfl, rfl⟩

@[simp] lemma refuses_map {k : α → β} : (k <$> r).Refuses s g ↔ r.Refuses s g := by
  rw [map_eq_pure_bind]
  simp only [refuses_bind, not_refuses_pure, and_false, exists_false, or_false]

@[simp] lemma overruns_map {k : α → β} : (k <$> r).Overruns s n ↔ r.Overruns s n := by
  rw [map_eq_pure_bind]
  simp only [overruns_bind, not_overruns_pure, and_false, exists_false, or_false]

/-! ### Single steps -/

/-- A look at the stream reads nothing. -/
lemma bind_stream_run (f : TokenStream → Rule α) (s : TokenStream) :
    (stream >>= f) s = f s s := by
  simp [bind_run, stream, Run.afterVisits]

/-- A look at the current token reads nothing. -/
lemma bind_current_run (f : Token → Rule α) (s : TokenStream) :
    (current >>= f) s = f s.current s := by
  simp [bind_run, current, Run.afterVisits]

/-- A step to the next token hands the stream behind it on. -/
lemma bind_advance_run (k : Unit → Rule α) (s : TokenStream) :
    (advance >>= k) s = k () s.advance := by
  simp [bind_run, advance, Run.afterVisits]

/-- The stream is given as it stands. -/
@[simp] lemma gives_stream {t : TokenStream} : stream.Gives s t s' ↔ t = s ∧ s' = s := by
  simp [Gives, stream, eq_comm]

@[simp] lemma not_refuses_stream : ¬ stream.Refuses s g := by simp [Refuses, stream]

@[simp] lemma not_overruns_stream : ¬ stream.Overruns s n := by simp [Overruns, stream]

/-- The current token is given and stays. -/
@[simp] lemma gives_current {t : Token} : current.Gives s t s' ↔ t = s.current ∧ s' = s := by
  simp [Gives, current, eq_comm]

@[simp] lemma not_refuses_current : ¬ current.Refuses s g := by simp [Refuses, current]

@[simp] lemma not_overruns_current : ¬ current.Overruns s n := by simp [Overruns, current]

/-- A step leaves the token behind. -/
@[simp] lemma gives_advance {u : Unit} : advance.Gives s u s' ↔ s' = s.advance := by
  simp [Gives, advance, eq_comm]

@[simp] lemma not_refuses_advance : ¬ advance.Refuses s g := by simp [Refuses, advance]

@[simp] lemma not_overruns_advance : ¬ advance.Overruns s n := by simp [Overruns, advance]

/-- A visit leaves no trace in the stream. -/
@[simp] lemma gives_visit {name : String} {u : Unit} : (visit name).Gives s u s' ↔ s' = s := by
  simp [Gives, visit, eq_comm]

@[simp] lemma not_refuses_visit {name : String} : ¬ (visit name).Refuses s g := by
  simp [Refuses, visit]

@[simp] lemma not_overruns_visit {name : String} : ¬ (visit name).Overruns s n := by
  simp [Overruns, visit]

/-- A rule that fails gives nothing. -/
@[simp] lemma not_gives_fail {e : TokenStream → Failure} : ¬ (fail e : Rule α).Gives s a s' := by
  simp [Gives, fail]

/-- It refuses with the failure that it was told to raise. -/
@[simp] lemma refuses_fail {e : TokenStream → Failure} :
    (fail e : Rule α).Refuses s g ↔ g = e s := by
  simp [Refuses, fail, eq_comm]

@[simp] lemma not_overruns_fail {e : TokenStream → Failure} : ¬ (fail e : Rule α).Overruns s n := by
  simp [Overruns, fail]

/-- An integer that is too long gives nothing. -/
@[simp] lemma not_gives_overlong : ¬ (overlong m : Rule α).Gives s a s' := by
  simp [Gives, overlong]

@[simp] lemma not_refuses_overlong : ¬ (overlong m : Rule α).Refuses s g := by
  simp [Refuses, overlong]

/-- It overruns with its length. -/
@[simp] lemma overruns_overlong : (overlong m : Rule α).Overruns s n ↔ n = m := by
  simp [Overruns, overlong, eq_comm]

/-! ### Rules that begin with a step -/

section First

variable {f : Token → Rule α} {k : Unit → Rule α}

/-- A rule that begins with a look at the current token ends as it does for that
token. -/
lemma gives_bind_current : (current >>= f).Gives s a s' ↔ (f s.current).Gives s a s' := by
  rw [Gives, bind_current_run, Gives]

lemma refuses_bind_current : (current >>= f).Refuses s g ↔ (f s.current).Refuses s g := by
  rw [Refuses, bind_current_run, Refuses]

lemma overruns_bind_current : (current >>= f).Overruns s n ↔ (f s.current).Overruns s n := by
  rw [Overruns, bind_current_run, Overruns]

/-- A rule that begins with a look at the stream ends as it does for that
stream. -/
lemma gives_bind_stream {f : TokenStream → Rule α} :
    (stream >>= f).Gives s a s' ↔ (f s).Gives s a s' := by
  rw [Gives, bind_stream_run, Gives]

/-- A rule that begins with a step ends as it does behind the token. -/
lemma gives_bind_advance : (advance >>= k).Gives s a s' ↔ (k ()).Gives s.advance a s' := by
  rw [Gives, bind_advance_run, Gives]

lemma refuses_bind_advance : (advance >>= k).Refuses s g ↔ (k ()).Refuses s.advance g := by
  rw [Refuses, bind_advance_run, Refuses]

lemma overruns_bind_advance : (advance >>= k).Overruns s n ↔ (k ()).Overruns s.advance n := by
  rw [Overruns, bind_advance_run, Overruns]

/-- A visit in front of a rule changes nothing about its end. -/
lemma gives_visited {name : String} :
    (visit name >>= fun _ => r).Gives s a s' ↔ r.Gives s a s' := by simp

lemma refuses_visited {name : String} :
    (visit name >>= fun _ => r).Refuses s g ↔ r.Refuses s g := by simp

lemma overruns_visited {name : String} :
    (visit name >>= fun _ => r).Overruns s n ↔ r.Overruns s n := by simp

end First

/-! ### Rules that end with a value -/

section Value

variable {f : α → Rule β} {k : α → β} {b : β}

/-- A rule that ends with a value gives it where the rule before gives. -/
lemma gives_value (hf : ∀ a, f a = pure (k a)) :
    (r >>= f).Gives s b s' ↔ ∃ a, r.Gives s a s' ∧ b = k a := by
  simp only [gives_bind, hf, gives_pure]
  constructor
  · rintro ⟨a, _, ha, rfl, rfl⟩
    exact ⟨a, ha, rfl⟩
  · rintro ⟨a, ha, rfl⟩
    exact ⟨a, s', ha, rfl, rfl⟩

/-- It refuses where that rule does. -/
lemma refuses_value (hf : ∀ a, f a = pure (k a)) :
    (r >>= f).Refuses s g ↔ r.Refuses s g := by
  simp [hf]

/-- It overruns where that rule does. -/
lemma overruns_value (hf : ∀ a, f a = pure (k a)) :
    (r >>= f).Overruns s n ↔ r.Overruns s n := by
  simp [hf]

end Value

/-! ### Rules of two parts -/

section Parts

variable {γ : Type} {name : String} {rest : α → Rule β} {k : α → β → γ} {c : γ}

/-- A rule that is entered, and reads two parts in a row, puts together what they give. -/
lemma gives_parts :
    (do
      visit name
      let a ← r
      let b ← rest a
      return k a b : Rule γ).Gives s c s' ↔
      ∃ a s₁ b, r.Gives s a s₁ ∧ (rest a).Gives s₁ b s' ∧ c = k a b := by
  simp only [gives_bind, gives_visit, gives_pure]
  constructor
  · rintro ⟨_, s₀, rfl, a, s₁, ha, b, s₂, hb, rfl, rfl⟩
    exact ⟨a, s₁, b, ha, hb, rfl⟩
  · rintro ⟨a, s₁, b, ha, hb, rfl⟩
    exact ⟨(), s, rfl, a, s₁, ha, b, s', hb, rfl, rfl⟩

/-- It is refused in one of them. -/
lemma refuses_parts :
    (do
      visit name
      let a ← r
      let b ← rest a
      return k a b : Rule γ).Refuses s g ↔
      r.Refuses s g ∨ ∃ a s₁, r.Gives s a s₁ ∧ (rest a).Refuses s₁ g := by
  simp

/-- It overruns in one of its parts. -/
lemma overruns_parts :
    (do
      visit name
      let a ← r
      let b ← rest a
      return k a b : Rule γ).Overruns s n ↔
      r.Overruns s n ∨ ∃ a s₁, r.Gives s a s₁ ∧ (rest a).Overruns s₁ n := by
  simp

end Parts

section Token

variable {kind : Kind} {what : Option String} {opener : Option Token} {t : Token}

/-- **A token is read if it has the kind that is asked for.** -/
@[simp] lemma gives_token :
    (token kind what opener).Gives s t s' ↔
      s.current.kind = kind ∧ t = s.current ∧ s' = s.advance := by
  simp only [Gives, token]
  by_cases h : s.current.kind = kind
  · simp [h, eq_comm]
  · cases opener with
    | none => simp [h]
    | some o => by_cases hend : s.atEnd <;> simp [h, hend]

@[simp] lemma not_overruns_token : ¬ (token kind what opener).Overruns s n := by
  simp only [Overruns, token]
  by_cases h : s.current.kind = kind
  · simp [h]
  · cases opener with
    | none => simp [h]
    | some o => by_cases hend : s.atEnd <;> simp [h, hend]

/-- A missing token is reported where it should stand. -/
lemma refuses_token (h : (token kind what none).Refuses s g) :
    s.current.kind ≠ kind ∧ ∃ e, g = .unexpected s e := by
  simp only [Refuses, token] at h
  by_cases hk : s.current.kind = kind
  · simp [hk] at h
  · rw [if_neg hk] at h
    exact ⟨hk, _, (Outcome.failure.inj h).symm⟩

/-- A missing closing bracket is reported where it should stand; at the end of
input as an unterminated bracket. -/
lemma refuses_token_closing {o : Token} (h : (token kind what (some o)).Refuses s g) :
    s.current.kind ≠ kind ∧
      ∃ e, g = if s.atEnd then .ofKind .unterminatedBracket s e else .unexpected s e := by
  simp only [Refuses, token] at h
  by_cases hk : s.current.kind = kind
  · simp [hk] at h
  · rw [if_neg hk] at h
    refine ⟨hk, ?_⟩
    by_cases hend : s.atEnd
    · simp only [hend, if_true] at h ⊢
      exact ⟨_, (Outcome.failure.inj h).symm⟩
    · simp only [hend, Bool.false_eq_true, if_false] at h ⊢
      exact ⟨_, (Outcome.failure.inj h).symm⟩

/-- What was missing is described by its kind, unless it has a description of its
own. -/
lemma refuses_token_closer {o : Token} (h : (token kind none (some o)).Refuses s g) :
    g = if s.atEnd then .ofKind .unterminatedBracket s (.closing kind.describe o)
      else .unexpected s (.named kind.describe) := by
  simp only [Refuses, token] at h
  by_cases hk : s.current.kind = kind
  · simp [hk] at h
  · rw [if_neg hk] at h
    by_cases hend : s.atEnd
    · simp only [hend, if_true] at h ⊢
      exact (Outcome.failure.inj h).symm
    · simp only [hend, Bool.false_eq_true, if_false] at h ⊢
      exact (Outcome.failure.inj h).symm

end Token

/-! ### Rules from rules -/

/-- **An attempt gives a value or nothing**: nothing where the rule declines,
and then the stream stays where it was. -/
@[simp] lemma gives_attempt {o : Option α} :
    (attempt r).Gives s o s' ↔
      (∃ a, o = some a ∧ r.Gives s a s') ∨
        o = none ∧ s' = s ∧ ∃ g, r.Refuses s g ∧ g.declinesAt s = true := by
  simp only [Gives, Refuses, attempt]
  rcases r s with ⟨⟨a, rest⟩ | e | n, visits⟩
  · simp only [Outcome.success.injEq, reduceCtorEq, false_and, exists_false, and_false, or_false]
    constructor
    · rintro ⟨rfl, rfl⟩
      exact ⟨a, rfl, rfl, rfl⟩
    · rintro ⟨a', rfl, rfl, rfl⟩
      exact ⟨rfl, rfl⟩
  · by_cases h : e.declinesAt s
    · simp only [h, if_true, Outcome.success.injEq, reduceCtorEq, and_false, exists_false,
        false_or, Outcome.failure.injEq, exists_eq_left', and_true]
      exact and_congr eq_comm eq_comm
    · simp [h]
  · simp

/-- It refuses where the rule has read something before it failed. -/
@[simp] lemma refuses_attempt :
    (attempt r).Refuses s g ↔ r.Refuses s g ∧ g.declinesAt s = false := by
  simp only [Refuses, attempt]
  rcases r s with ⟨⟨a, rest⟩ | e | n, visits⟩
  · simp
  · by_cases h : e.declinesAt s
    · simp only [h, if_true, reduceCtorEq, Outcome.failure.injEq, false_iff, not_and]
      rintro rfl
      simp [h]
    · simp only [h, Bool.false_eq_true, if_false, Outcome.failure.injEq, iff_self_and]
      rintro rfl
      simpa using h
  · simp

@[simp] lemma overruns_attempt : (attempt r).Overruns s n ↔ r.Overruns s n := by
  simp only [Overruns, attempt]
  rcases r s with ⟨⟨a, rest⟩ | e | m, visits⟩
  · simp
  · by_cases h : e.declinesAt s <;> simp [h]
  · simp

/-- A name for what was expected matters only where the rule declines. -/
@[simp] lemma gives_called {what : String} : (called what r).Gives s a s' ↔ r.Gives s a s' := by
  simp only [Gives, called]
  rcases r s with ⟨⟨a, rest⟩ | e | m, visits⟩ <;> simp

/-- There it takes the place of what the rule expected. -/
@[simp] lemma refuses_called {what : String} :
    (called what r).Refuses s g ↔
      ∃ e, r.Refuses s e ∧ g = if e.declinesAt s then .unexpected s (.named what) else e := by
  simp only [Refuses, called]
  rcases r s with ⟨⟨a, rest⟩ | e | m, visits⟩
  · simp
  · simp only [Outcome.failure.injEq, exists_eq_left']
    exact eq_comm
  · simp

@[simp] lemma overruns_called {what : String} : (called what r).Overruns s n ↔ r.Overruns s n := by
  simp only [Overruns, called]
  rcases r s with ⟨⟨a, rest⟩ | e | m, visits⟩ <;> simp

/-- The span of a value reaches from where the rule begins to where it ends. -/
@[simp] lemma gives_spanned {p : α × Span} :
    (spanned r).Gives s p s' ↔ r.Gives s p.1 s' ∧ p.2 = s'.spanFrom s := by
  rcases p with ⟨a, span⟩
  simp only [spanned, gives_bind, gives_stream, gives_pure, Prod.mk.injEq]
  constructor
  · rintro ⟨_, _, ⟨rfl, rfl⟩, _, _, h, _, _, ⟨rfl, rfl⟩, ⟨rfl, rfl⟩, rfl⟩
    exact ⟨h, rfl⟩
  · rintro ⟨h, rfl⟩
    exact ⟨s, s, ⟨rfl, rfl⟩, a, s', h, s', s', ⟨rfl, rfl⟩, ⟨rfl, rfl⟩, rfl⟩

@[simp] lemma refuses_spanned : (spanned r).Refuses s g ↔ r.Refuses s g := by
  simp [spanned]

@[simp] lemma overruns_spanned : (spanned r).Overruns s n ↔ r.Overruns s n := by
  simp [spanned]

/-! ### Choice -/

/-- The name of an alternative matters only where it refuses. -/
@[simp] lemma gives_alternative {name : String} :
    (alternative name r).Gives s a s' ↔ r.Gives s a s' := by
  simp only [Gives, alternative]
  rcases r s with ⟨⟨a, rest⟩ | e | m, visits⟩ <;> simp

/-- There it is put on the failure. -/
@[simp] lemma refuses_alternative {name : String} :
    (alternative name r).Refuses s g ↔ ∃ e, r.Refuses s e ∧ g = e.inAlternative name := by
  simp only [Refuses, alternative]
  rcases r s with ⟨⟨a, rest⟩ | e | m, visits⟩
  · simp
  · simp only [Outcome.failure.injEq, exists_eq_left']
    exact eq_comm
  · simp

@[simp] lemma overruns_alternative {name : String} :
    (alternative name r).Overruns s n ↔ r.Overruns s n := by
  simp only [Overruns, alternative]
  rcases r s with ⟨⟨a, rest⟩ | e | m, visits⟩ <;> simp

section Choice

variable {first next : String × Rule α} {others : List (String × Rule α)}

/-- A choice of one alternative is that alternative. -/
@[simp] lemma choice_nil : choice first [] = alternative first.1 first.2 := rfl

/-- A run in place of one that failed: of two failures the one further into the
input. -/
def keepFurthest (f : Failure) : Run α → Run α
  | ⟨.failure e, visits⟩ => ⟨.failure (if e.isRecoverable then f.furthest e else e), visits⟩
  | run => run

/-- Past a first alternative that may be left, the others run in its place. -/
lemma choice_of_refused {f : Failure} {visits : List Visit}
    (h : alternative first.1 first.2 s = ⟨.failure f, visits⟩) (hf : f.isRecoverable = true) :
    choice first (next :: others) s =
      (keepFurthest f (choice next others s)).afterVisits visits := by
  simp only [choice, h, hf, if_true]
  rfl

/-- A first alternative that succeeds or overruns is the outcome. -/
lemma outcome_choice_of_not_refuses (h : ∀ g, ¬ (first.2).Refuses s g) :
    (choice first (next :: others) s).outcome = (first.2 s).outcome := by
  have h' : ∀ g, ¬ (alternative first.1 first.2).Refuses s g := by simp [h]
  have ha : (alternative first.1 first.2 s).outcome = (first.2 s).outcome := by
    simp only [alternative]
    rcases hr : first.2 s with ⟨⟨a, rest⟩ | e | m, visits⟩
    · rfl
    · exact absurd (by rw [Refuses, hr]) (h e)
    · rfl
  simp only [Refuses] at h'
  rw [← ha]
  rcases hr : alternative first.1 first.2 s with ⟨⟨a, rest⟩ | e | m, visits⟩
  · simp only [choice, hr]
  · exact absurd (by rw [hr]) (h' e)
  · simp only [choice, hr]

/-- Past a first alternative that may be left, the outcome is that of the
others, where both fail the failure further into the input. -/
lemma outcome_choice_of_refuses (h : (first.2).Refuses s g) (hg : g.isRecoverable = true) :
    (choice first (next :: others) s).outcome =
      match (choice next others s).outcome with
      | .failure e =>
        .failure (if e.isRecoverable then (g.inAlternative first.1).furthest e else e)
      | outcome => outcome := by
  have ha : (alternative first.1 first.2).Refuses s (g.inAlternative first.1) := by
    simpa using ⟨g, h, rfl⟩
  have hrec : (g.inAlternative first.1).isRecoverable = true := by
    rw [Failure.inAlternative_isRecoverable, hg]
  rw [Refuses] at ha
  rcases hr : alternative first.1 first.2 s with ⟨outcome, visits⟩
  rw [hr] at ha
  simp only at ha
  subst ha
  simp only [choice, hr, hrec, if_true, afterVisits_outcome]
  rcases choice next others s with ⟨⟨a, rest⟩ | e | m, more⟩ <;> rfl

/-- A failure that leaves no room for another rule ends the choice. -/
lemma refuses_choice_of_unrecoverable (next : String × Rule α) (others : List (String × Rule α))
    (h : (first.2).Refuses s g) (hg : g.isRecoverable = false) :
    (choice first (next :: others)).Refuses s (g.inAlternative first.1) := by
  have ha : (alternative first.1 first.2).Refuses s (g.inAlternative first.1) := by
    simpa using ⟨g, h, rfl⟩
  have hrec : (g.inAlternative first.1).isRecoverable = false := by
    rw [Failure.inAlternative_isRecoverable, hg]
  rw [Refuses] at ha
  rw [Refuses]
  rcases hr : alternative first.1 first.2 s with ⟨outcome, visits⟩
  rw [hr] at ha
  simp only at ha
  subst ha
  simp [choice, hr, hrec]

/-- A choice gives what its first alternative gives, or past that what the
others give. -/
lemma gives_choice_cons :
    (choice first (next :: others)).Gives s a s' ↔ first.2.Gives s a s' ∨
      ∃ g, first.2.Refuses s g ∧ g.isRecoverable = true ∧ (choice next others).Gives s a s' := by
  rcases ends first.2 s with ⟨b, s₁, h⟩ | ⟨g, h⟩ | ⟨n, h⟩
  · rw [Gives, outcome_choice_of_not_refuses fun _ => h.not_refuses, ← Gives]
    exact ⟨Or.inl, fun h' => h'.resolve_right fun ⟨_, hg, _⟩ => h.not_refuses hg⟩
  · cases hg : g.isRecoverable with
    | true =>
        rw [Gives, outcome_choice_of_refuses h hg]
        constructor
        · intro h'
          refine Or.inr ⟨g, h, hg, ?_⟩
          rw [Gives]
          split at h' <;> simp_all
        · rintro (h' | ⟨g', hg', hrec, h'⟩)
          · exact absurd h h'.not_refuses
          · rw [Gives] at h'
            rw [h']
    | false =>
        have hc := refuses_choice_of_unrecoverable next others h hg
        constructor
        · exact fun h' => absurd hc h'.not_refuses
        · rintro (h' | ⟨g', hg', hrec, -⟩)
          · exact absurd h h'.not_refuses
          · rw [hg'.unique h, hg] at hrec
            simp at hrec
  · have hn : ∀ g, ¬ first.2.Refuses s g := fun g hg => by
      rw [Overruns] at h
      rw [Refuses, h] at hg
      simp at hg
    rw [Gives, outcome_choice_of_not_refuses hn, ← Gives]
    exact ⟨Or.inl, fun h' => h'.resolve_right fun ⟨_, hg, _⟩ => hn _ hg⟩

/-- A choice is refused where its first alternative is: at once, if that leaves
no room for another rule, and else where the others are refused too. -/
lemma refuses_choice_cons :
    (choice first (next :: others)).Refuses s g ↔ ∃ g₁, first.2.Refuses s g₁ ∧
      (g₁.isRecoverable = false ∧ g = g₁.inAlternative first.1 ∨
        g₁.isRecoverable = true ∧ ∃ g₂, (choice next others).Refuses s g₂ ∧
          g = if g₂.isRecoverable then (g₁.inAlternative first.1).furthest g₂ else g₂) := by
  by_cases h : ∃ g₁, first.2.Refuses s g₁
  · obtain ⟨g₁, h₁⟩ := h
    have hex : ∀ P : Failure → Prop, (∃ g', first.2.Refuses s g' ∧ P g') ↔ P g₁ := fun P =>
      ⟨fun ⟨g', hg', hP⟩ => h₁.unique hg' ▸ hP, fun hP => ⟨g₁, h₁, hP⟩⟩
    rw [hex]
    cases hrec : g₁.isRecoverable with
    | false =>
        have hc := refuses_choice_of_unrecoverable next others h₁ hrec
        simp only [Bool.false_eq_true, false_and, or_false, true_and]
        exact ⟨fun h => h.unique hc, fun h => h ▸ hc⟩
    | true =>
        simp only [Bool.true_eq_false, false_and, true_and, false_or]
        rw [Refuses, outcome_choice_of_refuses h₁ hrec]
        simp only [Refuses]
        rcases (choice next others s).outcome with ⟨a, rest⟩ | e | n
        · simp
        · simp only [Outcome.failure.injEq, exists_eq_left']
          exact eq_comm
        · simp
  · rw [not_exists] at h
    rw [Refuses, outcome_choice_of_not_refuses h]
    exact ⟨fun hg => absurd hg (h g), fun ⟨g₁, h₁, _⟩ => absurd h₁ (h g₁)⟩

/-- A choice overruns only where one of its alternatives does. -/
lemma overruns_choice (h : (choice first others).Overruns s n) :
    ∃ r ∈ first :: others, r.2.Overruns s n := by
  induction others generalizing first with
  | nil =>
      rw [choice_nil, overruns_alternative] at h
      exact ⟨first, by simp, h⟩
  | cons next others ih =>
      by_cases href : ∃ g, first.2.Refuses s g
      · obtain ⟨g, hg⟩ := href
        cases hrec : g.isRecoverable with
        | true =>
            rw [Overruns, outcome_choice_of_refuses hg hrec] at h
            split at h
            · cases h
            · obtain ⟨r, hr, hn⟩ := ih h
              exact ⟨r, List.mem_cons_of_mem _ hr, hn⟩
        | false =>
            exact absurd h (refuses_choice_of_unrecoverable next others hg hrec).not_overruns
      · rw [not_exists] at href
        rw [Overruns, outcome_choice_of_not_refuses href] at h
        exact ⟨first, by simp, h⟩

end Choice

/-! ### Repetition -/

/-- Some rounds of a repetition: `bs` is what they give, and the next round
would begin with the state `state'` in front of `s'`. -/
inductive Reaches (step : σ → Rule (Option (β × σ))) :
    σ → TokenStream → List β → σ → TokenStream → Prop
  | refl (state : σ) (s : TokenStream) : Reaches step state s [] state s
  | round {state next state' : σ} {s s₁ s' : TokenStream} {b : β} {bs : List β}
      (h : (step state).Gives s (some (b, next)) s₁) (hs : Reaches step next s₁ bs state' s') :
      Reaches step state s (b :: bs) state' s'

/-- Every round of a repetition that goes on reads a token. -/
def Reading (step : σ → Rule (Option (β × σ))) : Prop :=
  ∀ state s b next s₁, s.Ordered → (step state).Gives s (some (b, next)) s₁ →
    ∃ w, w ≠ [] ∧ s.Passes w s₁

section Collect

variable {step : σ → Rule (Option (β × σ))} {state state' : σ} {bs : List β} {fuel : List Token}

/-- A round that reads leaves fewer tokens ahead, which is what the induction
over the rounds goes down on. -/
lemma Reading.shortens (hstep : Reading step) (hs : s.Ordered) {next : σ}
    (h : (step state).Gives s (some (b, next)) s₁) :
    s₁.Ordered ∧ s₁.ahead.length < s.ahead.length := by
  obtain ⟨w, hw, hp⟩ := hstep state s b next s₁ hs h
  have hlen := List.length_pos_iff.mpr hw
  refine ⟨hs.passes hp, ?_⟩
  rw [hp.ahead_eq, List.length_append]
  omega

/-- Before its fuel ends a repetition gives nothing where its step gives nothing, or the
result of one round and what it gives from there. -/
private lemma gives_collectWithin_cons {t : Token} :
    (collectWithin step (t :: fuel) state).Gives s bs s' ↔
      (bs = [] ∧ (step state).Gives s none s') ∨
        ∃ b next s₁ rest, bs = b :: rest ∧ (step state).Gives s (some (b, next)) s₁ ∧
          (collectWithin step fuel next).Gives s₁ rest s' := by
  rw [collectWithin, gives_bind]
  constructor
  · rintro ⟨_ | ⟨b, next⟩, s₁, h, h'⟩
    · obtain ⟨rfl, rfl⟩ := gives_pure.mp h'
      exact .inl ⟨rfl, h⟩
    · simp only [gives_bind, gives_pure] at h'
      obtain ⟨rest, s₂, hrest, rfl, rfl⟩ := h'
      exact .inr ⟨b, next, s₁, rest, rfl, h, hrest⟩
  · rintro (⟨rfl, h⟩ | ⟨b, next, s₁, rest, rfl, h, hrest⟩)
    · exact ⟨none, s', h, gives_pure.mpr ⟨rfl, rfl⟩⟩
    · exact ⟨some (b, next), s₁, h, gives_bind.mpr ⟨rest, s', hrest, gives_pure.mpr ⟨rfl, rfl⟩⟩⟩

/-- With fuel for all tokens ahead a repetition gives what its rounds give. -/
private lemma gives_collectWithin (hstep : Reading step) (hs : s.Ordered)
    (hf : s.ahead.length ≤ fuel.length) :
    (collectWithin step fuel state).Gives s bs s' ↔
      ∃ state' s₁, Reaches step state s bs state' s₁ ∧ (step state').Gives s₁ none s' := by
  induction fuel generalizing state s bs with
  | nil =>
      have hnone : ∀ p s₁, ¬ (step state).Gives s (some p) s₁ := fun p s₁ h => by
        have := (hstep.shortens hs h).2
        rw [List.length_nil] at hf
        omega
      rw [collectWithin, gives_bind]
      constructor
      · rintro ⟨_ | p, s₁, h, h'⟩
        · obtain ⟨rfl, rfl⟩ := gives_pure.mp h'
          exact ⟨state, s, .refl _ _, h⟩
        · exact absurd h (hnone p s₁)
      · rintro ⟨state', s₁, hr, h⟩
        cases hr with
        | refl => exact ⟨none, s', h, gives_pure.mpr ⟨rfl, rfl⟩⟩
        | round h' _ => exact absurd h' (hnone _ _)
  | cons t fuel ih =>
      have hshort : ∀ {p s₁}, (step state).Gives s (some p) s₁ →
          s₁.Ordered ∧ s₁.ahead.length ≤ fuel.length := fun {p s₁} h => by
        obtain ⟨ho, hlt⟩ := hstep.shortens hs h
        rw [List.length_cons] at hf
        exact ⟨ho, by omega⟩
      rw [gives_collectWithin_cons]
      constructor
      · rintro (⟨rfl, h⟩ | ⟨b, next, s₁, rest, rfl, h, hrest⟩)
        · exact ⟨state, s, .refl _ _, h⟩
        · obtain ⟨ho, hlen⟩ := hshort h
          obtain ⟨state', s₂, hr, hd⟩ := (ih ho hlen).mp hrest
          exact ⟨state', s₂, .round h hr, hd⟩
      · rintro ⟨state', s₁, hr, h⟩
        cases hr with
        | refl => exact .inl ⟨rfl, h⟩
        | round h' hr =>
            obtain ⟨ho, hlen⟩ := hshort h'
            exact .inr ⟨_, _, _, _, rfl, h', (ih ho hlen).mpr ⟨state', s₁, hr, h⟩⟩

/-- A repetition gives what its rounds give, up to a round that ends it. -/
lemma gives_collect (hstep : Reading step) (hs : s.Ordered) :
    (collect step state).Gives s bs s' ↔
      ∃ state' s₁, Reaches step state s bs state' s₁ ∧ (step state').Gives s₁ none s' :=
  gives_collectWithin hstep hs le_rfl

/-- The first round of a repetition goes on, or the repetition ends as it does. -/
private lemma ends_first (step : σ → Rule (Option (β × σ))) (fuel : List Token) (state : σ)
    (s : TokenStream) :
    (∃ b next s₁, (step state).Gives s (some (b, next)) s₁) ∨
      (∃ s', (collectWithin step fuel state).Gives s [] s') ∨
      (∃ g, (collectWithin step fuel state).Refuses s g ∧ (step state).Refuses s g) ∨
      ∃ n, (collectWithin step fuel state).Overruns s n ∧ (step state).Overruns s n := by
  rcases ends (step state) s with ⟨_ | ⟨b, next⟩, s₁, h⟩ | ⟨g, h⟩ | ⟨n, h⟩
  · refine Or.inr (Or.inl ⟨s₁, ?_⟩)
    cases fuel <;> rw [collectWithin] <;> exact gives_bind.mpr ⟨none, s₁, h, by simp⟩
  · exact Or.inl ⟨b, next, s₁, h⟩
  · refine Or.inr (Or.inr (Or.inl ⟨g, ?_, h⟩))
    cases fuel <;> rw [collectWithin] <;> exact refuses_bind.mpr (Or.inl h)
  · refine Or.inr (Or.inr (Or.inr ⟨n, ?_, h⟩))
    cases fuel <;> rw [collectWithin] <;> exact overruns_bind.mpr (Or.inl h)

/-- A repetition ends with one of its rounds. -/
private lemma ends_collectWithin (state : σ) (hstep : Reading step) (hs : s.Ordered)
    (hf : s.ahead.length ≤ fuel.length) :
    ∃ bs state' s₁, Reaches step state s bs state' s₁ ∧
      ((∃ s', (collectWithin step fuel state).Gives s bs s') ∨
        (∃ g, (collectWithin step fuel state).Refuses s g ∧ (step state').Refuses s₁ g) ∨
        ∃ n, (collectWithin step fuel state).Overruns s n ∧ (step state').Overruns s₁ n) := by
  induction fuel generalizing state s with
  | nil =>
      rcases ends_first step [] state s with ⟨b, next, s₁, h⟩ | hend
      · have hlt := (hstep.shortens hs h).2
        rw [List.length_nil] at hf
        omega
      · exact ⟨[], state, s, .refl _ _, hend⟩
  | cons t fuel ih =>
      rcases ends_first step (t :: fuel) state s with ⟨b, next, s₁, h⟩ | hend
      · obtain ⟨ho, hlt⟩ := hstep.shortens hs h
        obtain ⟨bs, state', s₂, hr, hend⟩ :=
          ih next ho (by rw [List.length_cons] at hf; omega)
        refine ⟨b :: bs, state', s₂, .round h hr, ?_⟩
        rw [collectWithin]
        rcases hend with ⟨s', hg⟩ | ⟨g, hg, hg'⟩ | ⟨n, hn, hn'⟩
        · refine Or.inl ⟨s', gives_bind.mpr ⟨_, s₁, h, ?_⟩⟩
          exact gives_bind.mpr ⟨bs, s', hg, gives_pure.mpr ⟨rfl, rfl⟩⟩
        · refine Or.inr (Or.inl ⟨g, refuses_bind.mpr (Or.inr ⟨_, s₁, h, ?_⟩), hg'⟩)
          exact refuses_bind.mpr (Or.inl hg)
        · refine Or.inr (Or.inr ⟨n, overruns_bind.mpr (Or.inr ⟨_, s₁, h, ?_⟩), hn'⟩)
          exact overruns_bind.mpr (Or.inl hn)
      · exact ⟨[], state, s, .refl _ _, hend⟩

/-- A repetition fails in one of its rounds. -/
lemma refuses_collect (hstep : Reading step) (hs : s.Ordered)
    (h : (collect step state).Refuses s g) :
    ∃ bs state' s₁, Reaches step state s bs state' s₁ ∧ (step state').Refuses s₁ g := by
  obtain ⟨bs, state', s₁, hr, ⟨s', hg⟩ | ⟨g', hg, hg'⟩ | ⟨n, hn, -⟩⟩ :=
    ends_collectWithin state hstep hs le_rfl
  · exact absurd h hg.not_refuses
  · exact ⟨bs, state', s₁, hr, hg.unique h ▸ hg'⟩
  · exact absurd hn h.not_overruns

/-- A repetition overruns in one of its rounds. -/
lemma overruns_collect (hstep : Reading step) (hs : s.Ordered)
    (h : (collect step state).Overruns s n) :
    ∃ bs state' s₁, Reaches step state s bs state' s₁ ∧ (step state').Overruns s₁ n := by
  obtain ⟨bs, state', s₁, hr, ⟨s', hg⟩ | ⟨g, hg, -⟩ | ⟨m, hm, hm'⟩⟩ :=
    ends_collectWithin state hstep hs le_rfl
  · exact absurd h hg.not_overruns
  · exact absurd h hg.not_overruns
  · exact ⟨bs, state', s₁, hr, hm.unique h ▸ hm'⟩

end Collect

/-- Some rounds of a repetition without state: `bs` is what they give. -/
inductive Rounds (step : Rule (Option β)) : TokenStream → List β → TokenStream → Prop
  | refl (s : TokenStream) : Rounds step s [] s
  | round {s s₁ s' : TokenStream} {b : β} {bs : List β} (h : step.Gives s (some b) s₁)
      (hs : Rounds step s₁ bs s') : Rounds step s (b :: bs) s'

section Many

variable {step : Rule (Option β)} {bs : List β}

/-- Rounds without state are rounds with one that says nothing. -/
lemma reaches_many_iff {state state' : Unit} :
    Reaches (fun _ : Unit => (return (← step).map (·, ()) : Rule (Option (β × Unit))))
      state s bs state' s' ↔ Rounds step s bs s' := by
  constructor
  · intro h
    induction h with
    | refl state s => exact .refl s
    | @round state next state' s s₁ s' b bs h _ ih =>
        simp only [bind_pure_comp, gives_map] at h
        obtain ⟨_ | b', hb, h⟩ := h
        · simp at hb
        · simp only [Option.map_some, Option.some.injEq, Prod.mk.injEq] at hb
          exact .round (hb.1 ▸ h) ih
  · intro h
    induction h with
    | refl s => exact .refl _ s
    | round h _ ih =>
        refine Reaches.round ?_ ih
        simp only [bind_pure_comp, gives_map]
        exact ⟨_, rfl, h⟩

/-- Every round that goes on reads a token. -/
def ReadingRounds (step : Rule (Option β)) : Prop :=
  ∀ s b s₁, s.Ordered → step.Gives s (some b) s₁ → ∃ w, w ≠ [] ∧ s.Passes w s₁

/-- The same of rounds that read. -/
lemma ReadingRounds.reading (h : ReadingRounds step) :
    Reading fun _ : Unit => (return (← step).map (·, ()) : Rule (Option (β × Unit))) := by
  intro state s b next s₁ hs hstep
  simp only [bind_pure_comp, gives_map] at hstep
  obtain ⟨_ | b', hb, hstep⟩ := hstep
  · simp at hb
  · exact h s b' s₁ hs hstep

/-- A repetition without state gives what its rounds give, up to a round that
ends it. -/
lemma gives_many (hstep : ReadingRounds step) (hs : s.Ordered) :
    (many step).Gives s bs s' ↔ ∃ s₁, Rounds step s bs s₁ ∧ step.Gives s₁ none s' := by
  rw [many, gives_collect hstep.reading hs]
  constructor
  · rintro ⟨state, s₁, hr, h⟩
    simp only [bind_pure_comp, gives_map] at h
    obtain ⟨_ | b, hb, h⟩ := h
    · exact ⟨s₁, reaches_many_iff.mp hr, h⟩
    · simp at hb
  · rintro ⟨s₁, hr, h⟩
    refine ⟨(), s₁, reaches_many_iff.mpr hr, ?_⟩
    simp only [bind_pure_comp, gives_map]
    exact ⟨none, rfl, h⟩

/-- A repetition without state fails in one of its rounds. -/
lemma refuses_many (hstep : ReadingRounds step) (hs : s.Ordered) (h : (many step).Refuses s g) :
    ∃ bs s₁, Rounds step s bs s₁ ∧ step.Refuses s₁ g := by
  obtain ⟨bs, state', s₁, hr, h⟩ := refuses_collect hstep.reading hs h
  simp only [bind_pure_comp, refuses_map] at h
  exact ⟨bs, s₁, reaches_many_iff.mp hr, h⟩

/-- A repetition without state overruns in one of its rounds. -/
lemma overruns_many (hstep : ReadingRounds step) (hs : s.Ordered) (h : (many step).Overruns s n) :
    ∃ bs s₁, Rounds step s bs s₁ ∧ step.Overruns s₁ n := by
  obtain ⟨bs, state', s₁, hr, h⟩ := overruns_collect hstep.reading hs h
  simp only [bind_pure_comp, overruns_map] at h
  exact ⟨bs, s₁, reaches_many_iff.mp hr, h⟩

end Many

end Rule

end ArrayExpr
