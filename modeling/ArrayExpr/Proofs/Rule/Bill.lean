/-
What a rule visits when it succeeds.

* `Rule.bill`: the rules visited, each as often as it was, in no order;
* `Rule.Pays`: a rule succeeds, with the bill of its run;
* `pays_bind` and those after it: the bill of a rule made from rules is the sum of
  theirs;
* `pays_collect`: a repetition pays for its first round and for the rounds after it;
* `pays_choice_cons`: a choice also pays for the alternatives that failed before.
-/
import ArrayExpr.Proofs.Rule.OnePass
import ArrayExpr.Proofs.Rule.Activations

namespace ArrayExpr

namespace Rule

variable {α β σ : Type} {r : Rule α} {f : α → Rule β} {s s' s₁ : TokenStream} {a : α} {b : β}
  {m : Multiset String}

/-! ### Bills -/

/-- The rules visited, each as often as it was. -/
def bill (visits : List Visit) : Multiset String := visits.map Visit.rule

@[simp] lemma bill_nil : bill [] = 0 := rfl

@[simp] lemma bill_singleton (v : Visit) : bill [v] = {v.rule} := rfl

/-- Visits in a row are charged one after the other. -/
@[simp] lemma bill_append (first next : List Visit) :
    bill (first ++ next) = bill first + bill next := by
  simp [bill]

/-- Visits made before are charged, too. -/
@[simp] lemma bill_afterVisits (visits : List Visit) (run : Run α) :
    bill (run.afterVisits visits).visits = bill visits + bill run.visits := by
  simp [Run.afterVisits]

/-- How often a rule stands on a bill. -/
lemma count_bill (rule : String) (visits : List Visit) :
    (bill visits).count rule = visits.countP (·.rule = rule) := by
  rw [bill, Multiset.coe_count, List.count, List.countP_map]
  rfl

/-- A rule succeeds in front of `s`, and `m` is the bill of its run. -/
structure Pays (r : Rule α) (s : TokenStream) (a : α) (s' : TokenStream) (m : Multiset String) :
    Prop where
  gives : r.Gives s a s'
  bill : bill (r s).visits = m

/-- A rule that gives a value pays for what it visits. -/
lemma Gives.pays (h : r.Gives s a s') : r.Pays s a s' (Rule.bill (r s).visits) := ⟨h, rfl⟩

/-- Rules that run alike pay alike. -/
lemma pays_congr {r' : Rule α} (h : r s = r' s) : r.Pays s a s' m ↔ r'.Pays s a s' m := by
  constructor
  · rintro ⟨hg, rfl⟩
    exact ⟨by rw [Gives, ← h]; exact hg, by rw [h]⟩
  · rintro ⟨hg, rfl⟩
    exact ⟨by rw [Gives, h]; exact hg, by rw [h]⟩

/-- Where a rule visits nothing there is nothing to pay. -/
lemma pays_iff_of_visits_nil (h : (r s).visits = []) :
    r.Pays s a s' m ↔ r.Gives s a s' ∧ m = 0 := by
  constructor
  · rintro ⟨hg, rfl⟩
    exact ⟨hg, by rw [h]; rfl⟩
  · rintro ⟨hg, rfl⟩
    exact ⟨hg, by rw [h]; rfl⟩

/-! ### Rules in a row -/

/-- **Rules in a row pay one after the other.** -/
lemma pays_bind : (r >>= f).Pays s b s' m ↔
    ∃ a s₁ m₁ m₂, r.Pays s a s₁ m₁ ∧ (f a).Pays s₁ b s' m₂ ∧ m = m₁ + m₂ := by
  constructor
  · rintro ⟨hg, rfl⟩
    obtain ⟨a, s₁, ha, hb⟩ := gives_bind.mp hg
    refine ⟨a, s₁, _, _, ha.pays, hb.pays, ?_⟩
    have hr : r s = ⟨.success a s₁, (r s).visits⟩ := by rw [← ha]
    rw [bind_run, hr, bill_afterVisits]
  · rintro ⟨a, s₁, m₁, m₂, ⟨ha, rfl⟩, ⟨hb, rfl⟩, rfl⟩
    refine ⟨gives_bind.mpr ⟨a, s₁, ha, hb⟩, ?_⟩
    have hr : r s = ⟨.success a s₁, (r s).visits⟩ := by rw [← ha]
    rw [bind_run, hr, bill_afterVisits]

/-- A value costs nothing. -/
lemma pays_pure {a' : α} : (pure a : Rule α).Pays s a' s' m ↔ a' = a ∧ s' = s ∧ m = 0 := by
  rw [pays_iff_of_visits_nil rfl, gives_pure, and_assoc]

/-- What is made of a value costs nothing. -/
lemma pays_bind_pure {k : α → β} :
    (r >>= fun a => pure (k a)).Pays s b s' m ↔ ∃ a, b = k a ∧ r.Pays s a s' m := by
  simp only [pays_bind, pays_pure]
  constructor
  · rintro ⟨a, s₁, m₁, m₂, ha, ⟨rfl, rfl, rfl⟩, rfl⟩
    exact ⟨a, rfl, by rwa [add_zero]⟩
  · rintro ⟨a, rfl, ha⟩
    exact ⟨a, s', m, 0, ha, ⟨rfl, rfl, rfl⟩, (add_zero m).symm⟩

/-- A rule that is visited pays for the visit. -/
lemma pays_visited {name : String} :
    (visit name >>= fun _ => r).Pays s a s' m ↔ ∃ m₁, r.Pays s a s' m₁ ∧ m = {name} + m₁ := by
  simp only [pays_bind]
  constructor
  · rintro ⟨_, s₁, m₁, m₂, ⟨hv, rfl⟩, ha, rfl⟩
    rw [gives_visit.mp hv] at ha
    exact ⟨m₂, ha, rfl⟩
  · rintro ⟨m₁, ha, rfl⟩
    exact ⟨(), s, {name}, m₁, ⟨gives_visit.mpr rfl, rfl⟩, ha, rfl⟩

/-- A look at the token ahead costs nothing. -/
lemma pays_current {k : Token → Rule α} :
    (current >>= k).Pays s a s' m ↔ (k s.current).Pays s a s' m :=
  pays_congr (bind_current_run k s)

/-- A step costs nothing. -/
lemma pays_advance {u : Unit} : advance.Pays s u s' m ↔ s' = s.advance ∧ m = 0 := by
  rw [pays_iff_of_visits_nil rfl, gives_advance]

/-- A token costs nothing. -/
lemma pays_token {kind : Kind} {what : Option String} {opener : Option Token} {t : Token} :
    (token kind what opener).Pays s t s' m ↔
      (s.current.kind = kind ∧ t = s.current ∧ s' = s.advance) ∧ m = 0 := by
  rw [pays_iff_of_visits_nil (token_visits _ _ _ _), gives_token]

/-! ### Rules from rules -/

/-- A span costs nothing. -/
lemma pays_spanned {p : α × Span} :
    (spanned r).Pays s p s' m ↔ r.Pays s p.1 s' m ∧ p.2 = s'.spanFrom s := by
  have hvisits : (spanned r s).visits = (r s).visits := by
    rw [spanned, bind_run]
    simp only [stream, bind_run]
    rcases r s with ⟨⟨a, rest⟩ | g | n, visits⟩ <;> simp [Run.afterVisits]
  constructor
  · rintro ⟨hg, rfl⟩
    obtain ⟨ha, hspan⟩ := gives_spanned.mp hg
    exact ⟨⟨ha, by rw [hvisits]⟩, hspan⟩
  · rintro ⟨⟨ha, rfl⟩, hspan⟩
    exact ⟨gives_spanned.mpr ⟨ha, hspan⟩, by rw [hvisits]⟩

/-- A name for what was expected costs nothing. -/
lemma called_visits (what : String) (r : Rule α) (s : TokenStream) :
    (called what r s).visits = (r s).visits := by
  rw [called]
  rcases r s with ⟨⟨a, rest⟩ | g | n, visits⟩ <;> rfl

/-- The same where a value is given. -/
lemma pays_called {what : String} : (called what r).Pays s a s' m ↔ r.Pays s a s' m := by
  constructor
  · rintro ⟨hg, rfl⟩
    exact ⟨gives_called.mp hg, by rw [called_visits]⟩
  · rintro ⟨hg, rfl⟩
    exact ⟨gives_called.mpr hg, by rw [called_visits]⟩

/-- The name of an alternative costs nothing. -/
lemma alternative_visits (name : String) (r : Rule α) (s : TokenStream) :
    (alternative name r s).visits = (r s).visits := by
  rw [alternative]
  rcases r s with ⟨⟨a, rest⟩ | g | n, visits⟩ <;> rfl

/-- The same where a value is given. -/
lemma pays_alternative {name : String} :
    (alternative name r).Pays s a s' m ↔ r.Pays s a s' m := by
  constructor
  · rintro ⟨hg, rfl⟩
    exact ⟨gives_alternative.mp hg, by rw [alternative_visits]⟩
  · rintro ⟨hg, rfl⟩
    exact ⟨gives_alternative.mpr hg, by rw [alternative_visits]⟩

/-- **A choice pays for its first alternative**, and where that fails also for the others. -/
lemma pays_choice_cons {first next : String × Rule α} {others : List (String × Rule α)}
    (h : (choice first (next :: others)).Pays s a s' m) :
    first.2.Pays s a s' m ∨ ∃ g m₁, first.2.Refuses s g ∧ (choice next others).Pays s a s' m₁ ∧
      m = bill (first.2 s).visits + m₁ := by
  obtain ⟨hg, rfl⟩ := h
  have hvisits := alternative_visits first.1 first.2 s
  rcases gives_choice_cons.mp hg with ha | ⟨g, he, hrec, ha⟩
  · refine .inl ⟨ha, ?_⟩
    have hr : (alternative first.1 first.2).Gives s a s' := gives_alternative.mpr ha
    have hrun : choice first (next :: others) s = alternative first.1 first.2 s := by
      rw [Gives] at hr
      rcases halt : alternative first.1 first.2 s with ⟨outcome, visits⟩
      rw [halt] at hr
      subst hr
      simp only [choice, halt]
    rw [hrun, hvisits]
  · refine .inr ⟨g, _, he, ha.pays, ?_⟩
    have hr : (alternative first.1 first.2).Refuses s (g.inAlternative first.1) :=
      refuses_alternative.mpr ⟨g, he, rfl⟩
    have hrec : (g.inAlternative first.1).isRecoverable = true := by
      rw [Failure.inAlternative_isRecoverable, hrec]
    have hrun : alternative first.1 first.2 s =
        ⟨.failure (g.inAlternative first.1), (first.2 s).visits⟩ := by
      rw [← hr, ← hvisits]
    rw [choice_of_refused hrun hrec, bill_afterVisits]
    rw [Gives] at ha
    rcases hc : choice next others s with ⟨outcome, visits⟩
    rw [hc] at ha
    subst ha
    rfl

/-! ### Rules that fail -/

/-- Behind a rule that fails nothing more is paid. -/
lemma bill_bind_of_refuses {g : Failure} (h : r.Refuses s g) :
    bill ((r >>= f) s).visits = bill (r s).visits := by
  have hr : r s = ⟨.failure g, (r s).visits⟩ := by rw [← h]
  rw [bind_run, hr]

/-- Rules in a row are charged one after the other, also where the second one fails. -/
lemma bill_bind_of_pays (h : r.Pays s a s₁ m) :
    bill ((r >>= f) s).visits = m + bill (f a s₁).visits := by
  have hr : r s = ⟨.success a s₁, (r s).visits⟩ := by rw [← h.gives]
  rw [bind_run, hr, bill_afterVisits, h.bill]

/-- A visit is charged on top of the rule behind it. -/
lemma bill_visited (name : String) (r : Rule α) (s : TokenStream) :
    bill ((visit name >>= fun _ => r) s).visits = {name} + bill (r s).visits :=
  bill_bind_of_pays (r := visit name) (a := ()) ⟨gives_visit.mpr rfl, rfl⟩

/-- Past an alternative that expects something else a choice pays for the others. -/
lemma choice_visits_of_unexpected {first next : String × Rule α}
    {others : List (String × Rule α)} {e : Expectation} {visits : List Visit}
    (h : first.2 s = ⟨.failure (.unexpected s e), visits⟩) :
    (choice first (next :: others) s).visits = visits ++ (choice next others s).visits := by
  have hfirst : alternative first.1 first.2 s =
      ⟨.failure ((Failure.unexpected s e).inAlternative first.1), visits⟩ := by
    rw [alternative, h]
  have hrec : (Failure.unexpected s e).isRecoverable = true := by
    have hd := unexpected_declinesAt s e
    rw [Failure.declinesAt, Bool.and_eq_true] at hd
    exact hd.1
  rw [choice_of_refused hfirst (by rw [Failure.inAlternative_isRecoverable, hrec])]
  rcases choice next others s with ⟨⟨a, rest⟩ | g | n, more⟩ <;>
    simp [keepFurthest, Run.afterVisits]

/-! ### Repetition -/

/-- **A repetition pays for its first round and for those after it.** -/
lemma pays_collect {step : σ → Rule (Option (β × σ))} (hstep : ReadingFrom step s) {state : σ}
    {bs : List β} (h : (collect step state).Pays s bs s' m) :
    (bs = [] ∧ (step state).Pays s none s' m) ∨
      ∃ b next bs' s₁ m₁ m₂, bs = b :: bs' ∧ (step state).Pays s (some (b, next)) s₁ m₁ ∧
        (collect step next).Pays s₁ bs' s' m₂ ∧ m = m₁ + m₂ := by
  obtain ⟨found, s₁, m₁, m₂, hfound, hrest, rfl⟩ :=
    pays_bind.mp ((pays_congr (collect_run hstep state)).mp h)
  rcases found with _ | ⟨b, next⟩
  · obtain ⟨rfl, rfl, rfl⟩ := pays_pure.mp hrest
    exact .inl ⟨rfl, by rwa [add_zero]⟩
  · obtain ⟨bs', rfl, hothers⟩ := pays_bind_pure.mp hrest
    exact .inr ⟨b, next, bs', s₁, m₁, m₂, rfl, hfound, hothers, rfl⟩

end Rule

end ArrayExpr
