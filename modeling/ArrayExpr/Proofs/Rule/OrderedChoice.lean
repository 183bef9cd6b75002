/-
What an ordered choice picks.

* `Failure.under`: a failure under the name of the alternative that failed;
* `Rule.Yields`: a rule fails and leaves room for another;
* `Rule.Picks`: how a choice between alternatives ends, and the visits of those that ran;
* `Picks.past`: an alternative in front that yields keeps its failure, if the others yield
  too and do not get further;
* `Picks.unique`: alternatives say how their choice ends;
* `choice_eq_iff_picks`: **and so it ends**, whatever the alternatives are.
-/
import ArrayExpr.Proofs.Rule.Outcome

namespace ArrayExpr

namespace Failure

/-- A failure with the name that it has from further inside, unless that is empty, and else
with `name`. -/
def under (f : Failure) (name : String) : Failure :=
  { f with alternative := some ((f.alternative.filter (· ≠ "")).getD name) }

lemma inAlternative_eq_under (f : Failure) (name : String) :
    f.inAlternative name = f.under name := by
  rcases f with ⟨kind, offset, expected, found, _ | own⟩
  · rfl
  · by_cases h : own = "" <;> simp [inAlternative, under, Option.filter, h]

lemma under_isRecoverable (f : Failure) (name : String) :
    (f.under name).isRecoverable = f.isRecoverable := rfl

lemma furthest_under (f g : Failure) (name name' : String) :
    (f.under name).furthest (g.under name') =
      if f.offset < g.offset then g.under name' else f.under name := rfl

end Failure

namespace Rule

variable {α : Type} {s : TokenStream} {ps after : List (String × Rule α)} {p : String × Rule α}
  {f : Failure} {run run' : Run α}

/-- The rule fails in front of `s` and leaves room for another. -/
def Yields (r : Rule α) (s : TokenStream) : Prop := ∃ g, r.Refuses s g ∧ g.isRecoverable = true

/-- The visits of some alternatives that are run one after another. -/
def visitsOf (s : TokenStream) (ps : List (String × Rule α)) : List Visit :=
  ps.flatMap fun p => (p.2 s).visits

/-- **How a choice ends.** Alternatives are run in turn until one of them does not yield:

* one that succeeds is the outcome as it is;
* so is one that overruns;
* one that leaves no room for another rule is the outcome under its name;
* if all yield, the outcome is under its name the first failure than which none is further.

The visits are those of the alternatives run, so that whatever stands behind the one that
does not yield leaves no trace. -/
inductive Picks (s : TokenStream) (ps : List (String × Rule α)) : Run α → Prop
  | success {before after : List (String × Rule α)} {p : String × Rule α} {a : α}
      {rest : TokenStream} (hps : ps = before ++ p :: after)
      (hbefore : ∀ q ∈ before, q.2.Yields s) (hp : p.2.Gives s a rest) :
      Picks s ps ⟨.success a rest, visitsOf s (before ++ [p])⟩
  | overlong {before after : List (String × Rule α)} {p : String × Rule α} {n : ℕ}
      (hps : ps = before ++ p :: after) (hbefore : ∀ q ∈ before, q.2.Yields s)
      (hp : p.2.Overruns s n) :
      Picks s ps ⟨.overlong n, visitsOf s (before ++ [p])⟩
  | final {before after : List (String × Rule α)} {p : String × Rule α} {f : Failure}
      (hps : ps = before ++ p :: after) (hbefore : ∀ q ∈ before, q.2.Yields s)
      (hp : p.2.Refuses s f) (hf : f.isRecoverable = false) :
      Picks s ps ⟨.failure (f.under p.1), visitsOf s (before ++ [p])⟩
  | furthest {before after : List (String × Rule α)} {p : String × Rule α} {f : Failure}
      (hps : ps = before ++ p :: after) (hall : ∀ q ∈ ps, q.2.Yields s)
      (hp : p.2.Refuses s f)
      (hbefore : ∀ q ∈ before, ∀ g, q.2.Refuses s g → g.offset < f.offset)
      (hafter : ∀ q ∈ after, ∀ g, q.2.Refuses s g → g.offset ≤ f.offset) :
      Picks s ps ⟨.failure (f.under p.1), visitsOf s ps⟩

/-! ### One alternative after another -/

lemma alternative_run_of_refuses (h : p.2.Refuses s f) :
    alternative p.1 p.2 s = ⟨.failure (f.under p.1), (p.2 s).visits⟩ := by
  rcases hr : p.2 s with ⟨outcome, visits⟩
  obtain rfl : outcome = .failure f := by simpa [Refuses, hr] using h
  simp only [alternative, hr, Failure.inAlternative_eq_under]

/-- An alternative that does not yield ends the choice. -/
lemma choice_of_not_yields (h : ¬ p.2.Yields s) : choice p after s = alternative p.1 p.2 s := by
  cases after with
  | nil => rfl
  | cons next after =>
      rcases hr : p.2 s with ⟨⟨a, rest⟩ | f | n, visits⟩
      · simp only [choice, alternative, hr]
      · have hf : f.isRecoverable = false :=
          Bool.eq_false_iff.mpr fun hf => h ⟨f, by rw [Refuses, hr], hf⟩
        simp [choice, alternative, hr, Failure.inAlternative_isRecoverable, hf]
      · simp only [choice, alternative, hr]

lemma visitsOf_singleton (s : TokenStream) (p : String × Rule α) :
    visitsOf s [p] = (p.2 s).visits := by
  simp [visitsOf]

lemma visitsOf_cons (s : TokenStream) (p : String × Rule α) (ps : List (String × Rule α)) :
    visitsOf s (p :: ps) = (p.2 s).visits ++ visitsOf s ps := by
  simp [visitsOf]

/-- A choice whose first alternative does not yield. -/
lemma picks_of_not_yields (h : ¬ p.2.Yields s) : Picks s (p :: after) (choice p after s) := by
  rw [choice_of_not_yields h]
  rcases hr : p.2 s with ⟨⟨a, rest⟩ | f | n, visits⟩
  · have hrun : alternative p.1 p.2 s = ⟨.success a rest, visitsOf s ([] ++ [p])⟩ := by
      simp [alternative, hr, visitsOf_singleton]
    rw [hrun]
    exact .success rfl (List.forall_mem_nil _) (by rw [Gives, hr])
  · have hp : p.2.Refuses s f := by rw [Refuses, hr]
    rw [alternative_run_of_refuses hp, ← visitsOf_singleton]
    exact .final rfl (List.forall_mem_nil _) hp (Bool.eq_false_iff.mpr fun hf => h ⟨f, hp, hf⟩)
  · have hrun : alternative p.1 p.2 s = ⟨.overlong n, visitsOf s ([] ++ [p])⟩ := by
      simp [alternative, hr, visitsOf_singleton]
    rw [hrun]
    exact .overlong rfl (List.forall_mem_nil _) (by rw [Overruns, hr])

/-- A choice with one alternative that yields. -/
lemma picks_of_yields (hp : p.2.Refuses s f) (hf : f.isRecoverable = true) :
    Picks s [p] (choice p [] s) := by
  rw [choice_nil, alternative_run_of_refuses hp, ← visitsOf_singleton]
  exact .furthest (show [p] = [] ++ p :: [] from rfl) (List.forall_mem_singleton.mpr ⟨f, hp, hf⟩)
    hp (List.forall_mem_nil _) (List.forall_mem_nil _)

/-- **One alternative more in front**, which yields: it keeps its failure, if the others yield
too and do not get further. -/
lemma Picks.past (h : Picks s ps run) (hp : p.2.Refuses s f) (hf : f.isRecoverable = true) :
    Picks s (p :: ps) ((keepFurthest (f.under p.1) run).afterVisits (p.2 s).visits) := by
  have hyields : p.2.Yields s := ⟨f, hp, hf⟩
  cases h with
  | success hps hbefore hq =>
      simp only [keepFurthest, Run.afterVisits, Run.joinVisits_eq, ← visitsOf_cons]
      exact .success (by rw [hps]; rfl) (List.forall_mem_cons.mpr ⟨hyields, hbefore⟩) hq
  | overlong hps hbefore hq =>
      simp only [keepFurthest, Run.afterVisits, Run.joinVisits_eq, ← visitsOf_cons]
      exact .overlong (by rw [hps]; rfl) (List.forall_mem_cons.mpr ⟨hyields, hbefore⟩) hq
  | final hps hbefore hq hg =>
      simp only [keepFurthest, Run.afterVisits, Run.joinVisits_eq, ← visitsOf_cons,
        Failure.under_isRecoverable, hg, Bool.false_eq_true, if_false]
      exact .final (by rw [hps]; rfl) (List.forall_mem_cons.mpr ⟨hyields, hbefore⟩) hq hg
  | @furthest before after q g hps hall hq hbefore hafter =>
      have hg : g.isRecoverable = true := by
        obtain ⟨g', hq', hg'⟩ := hall q (by simp [hps])
        rwa [hq.unique hq']
      have hall' : ∀ q ∈ p :: ps, q.2.Yields s := List.forall_mem_cons.mpr ⟨hyields, hall⟩
      simp only [keepFurthest, Run.afterVisits, Run.joinVisits_eq, ← visitsOf_cons,
        Failure.under_isRecoverable, hg, if_true, Failure.furthest_under]
      by_cases hlt : f.offset < g.offset
      · rw [if_pos hlt]
        refine .furthest (by rw [hps]; rfl) hall' hq (List.forall_mem_cons.mpr ⟨?_, hbefore⟩) hafter
        exact fun g' hg' => hp.unique hg' ▸ hlt
      · -- Every other failure is at most as far as `g`, and `g` is no further than `f`.
        rw [if_neg hlt]
        refine .furthest (show p :: ps = [] ++ p :: ps from rfl) hall' hp (List.forall_mem_nil _)
          fun q' hq' g' hg' => ?_
        rw [hps, List.mem_append, List.mem_cons] at hq'
        rcases hq' with hq' | rfl | hq'
        · exact (hbefore q' hq' g' hg').le.trans (not_lt.mp hlt)
        · exact hq.unique hg' ▸ not_lt.mp hlt
        · exact (hafter q' hq' g' hg').trans (not_lt.mp hlt)

/-- A choice ends in one of the ways in which a choice may end. -/
lemma picks_choice (first : String × Rule α) (others : List (String × Rule α)) (s : TokenStream) :
    Picks s (first :: others) (choice first others s) := by
  induction others generalizing first with
  | nil =>
      by_cases h : first.2.Yields s
      · obtain ⟨f, hp, hf⟩ := h
        exact picks_of_yields hp hf
      · exact picks_of_not_yields h
  | cons next others ih =>
      by_cases h : first.2.Yields s
      · obtain ⟨f, hp, hf⟩ := h
        rw [choice_of_refused (alternative_run_of_refuses hp) hf]
        exact (ih next).past hp hf
      · exact picks_of_not_yields h

/-! ### One outcome -/

/-- A list is cut at one place, if either cut is in front of the other only where it cannot
be. -/
lemma eq_of_cut {β : Type} {x y x' y' : List β} {b b' : β} (h : x ++ b :: y = x' ++ b' :: y')
    (hx : b ∈ x' → b' ∈ y → False) (hx' : b' ∈ x → b ∈ y' → False) :
    x = x' ∧ b = b' ∧ y = y' := by
  rcases List.append_eq_append_iff.mp h with ⟨z, rfl, hz⟩ | ⟨z, rfl, hz⟩ <;>
    rcases z with _ | ⟨c, z⟩
  · simpa using hz
  · obtain ⟨rfl, rfl⟩ := List.cons.inj hz
    exact (hx (by simp) (by simp)).elim
  · simpa [eq_comm] using hz
  · obtain ⟨rfl, rfl⟩ := List.cons.inj hz
    exact (hx' (by simp) (by simp)).elim

/-- Either the first alternative that does not yield is the outcome, or all yield. -/
lemma Picks.first_or_all (h : Picks s ps run) :
    (∃ before p after, ps = before ++ p :: after ∧ (∀ q ∈ before, q.2.Yields s) ∧
        ¬ p.2.Yields s ∧ run = ⟨(alternative p.1 p.2 s).outcome, visitsOf s (before ++ [p])⟩) ∨
      ∃ before p after f, ps = before ++ p :: after ∧ (∀ q ∈ ps, q.2.Yields s) ∧
        p.2.Refuses s f ∧ (∀ q ∈ before, ∀ g, q.2.Refuses s g → g.offset < f.offset) ∧
        (∀ q ∈ after, ∀ g, q.2.Refuses s g → g.offset ≤ f.offset) ∧
        run = ⟨.failure (f.under p.1), visitsOf s ps⟩ := by
  cases h with
  | success hps hbefore hp =>
      refine .inl ⟨_, _, _, hps, hbefore, fun ⟨g, hg, _⟩ => hp.not_refuses hg, ?_⟩
      rw [gives_alternative.mpr hp]
  | overlong hps hbefore hp =>
      refine .inl ⟨_, _, _, hps, hbefore, fun ⟨g, hg, _⟩ => hg.not_overruns hp, ?_⟩
      rw [overruns_alternative.mpr hp]
  | final hps hbefore hp hf =>
      refine .inl ⟨_, _, _, hps, hbefore, fun ⟨g, hg, hrec⟩ => ?_, ?_⟩
      · rw [hg.unique hp, hf] at hrec
        cases hrec
      · rw [alternative_run_of_refuses hp]
  | furthest hps hall hp hbefore hafter =>
      exact .inr ⟨_, _, _, _, hps, hall, hp, hbefore, hafter, rfl⟩

/-- **Alternatives say how their choice ends.** -/
lemma Picks.unique (h : Picks s ps run) (h' : Picks s ps run') : run = run' := by
  rcases h.first_or_all with ⟨before, p, after, rfl, hbefore, hp, rfl⟩ |
      ⟨before, p, after, f, rfl, hall, hp, hbefore, hafter, rfl⟩ <;>
    rcases h'.first_or_all with ⟨before', p', after', hps, hbefore', hp', rfl⟩ |
      ⟨before', p', after', f', hps, hall', hp', hbefore', hafter', rfl⟩
  · obtain ⟨rfl, rfl, -⟩ := eq_of_cut hps (fun hmem _ => hp (hbefore' p hmem))
      fun hmem _ => hp' (hbefore p' hmem)
    rfl
  · exact absurd (hall' p (by simp)) hp
  · exact absurd (hall p' (by simp [hps])) hp'
  · obtain ⟨rfl, rfl, -⟩ := eq_of_cut hps
      (fun hmem hmem' => ((hbefore' p hmem f hp).trans_le (hafter p' hmem' f' hp')).false)
      fun hmem hmem' => ((hbefore p' hmem f' hp').trans_le (hafter' p hmem' f hp)).false
    rw [hp.unique hp']

/-- **A choice ends as its alternatives say**: with the first success, unless a failure before
it leaves no room for another rule, else with the first such failure, else with the first
failure than which none is further. -/
theorem choice_eq_iff_picks (first : String × Rule α) (others : List (String × Rule α))
    (s : TokenStream) (run : Run α) :
    choice first others s = run ↔ Picks s (first :: others) run :=
  ⟨fun h => h ▸ picks_choice first others s, (picks_choice first others s).unique⟩

end Rule

end ArrayExpr
