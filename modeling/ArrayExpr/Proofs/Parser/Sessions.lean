/-
Sources that share their counts.

* `Session.call_eq`: a parse that counts under a number gives the verdict of one that
  keeps a log, and adds the log to the counts under that number;
* `Session.fresh_eq`, `Session.run_cons`, `Session.runOn_between`: the same of a parse
  with counts of its own, and of one parse after another;
* `Session.run_outcomes`, `Session.run_counts`: what the calls of a session give, and
  what the counts are after each of them;
* `Session.Independent`, `session_independent`: **the calls of a session do not touch
  each other**.
-/
import ArrayExpr.Parser.Parse
import ArrayExpr.Proofs.Parser.Counting
import Mathlib.Tactic

namespace ArrayExpr

namespace Session

variable {source : String} {sources sources' : List String}

/-! ### One call -/

/-- A call gives the verdict of a parse, and adds its log to the counts under the
number. -/
lemma call_eq (limit : ℤ) (number : ℕ) (source : String) (counters : Counters) :
    call limit number source counters =
      ((parse limit source).verdict, counters.add number (parse limit source).visits) := by
  rw [call, parse, parseTokens]
  cases tokenize source with
  | error e => rfl
  | ok tokens =>
      have hroot : Parser.expr limit (Context.mk limit 0 number).room = Parser.root limit := by
        rw [Context.room, Int.sub_zero, Parser.root]
      have hcounts := Parser.Counting.counts_expr ⟨limit, 0, number⟩ (.ofTokens tokens) counters
      dsimp only at hcounts ⊢
      rw [hcounts, hroot]
      simp only [Report.map, Report.ofRun]
      obtain ⟨outcome, visits⟩ := Parser.root limit (.ofTokens tokens)
      cases outcome <;> rfl

/-- A parse with counts of its own finds them as it left them. -/
lemma fresh_eq (limit : ℤ) (counters : Counters) (source : String) :
    fresh limit counters source =
      ((parse limit source).verdict, Stats.empty.add (parse limit source).visits) := by
  simp only [fresh, Counters.new, call_eq, Counters.add_between, Counters.read_between]

lemma fresh_count (limit : ℤ) (counters : Counters) (source rule : String) :
    (fresh limit counters source).2.count rule =
      (parse limit source).visits.countP (·.rule = rule) := by
  rw [fresh_eq, Stats.count_add, Stats.count_empty, Nat.zero_add]

/-- A source that has no tokens counts nothing. -/
lemma fresh_error {e : ScanError} (h : tokenize source = .error e) (limit : ℤ)
    (counters : Counters) (rule : String) : (fresh limit counters source).2.count rule = 0 := by
  rw [fresh_count, parse, parseTokens, h]
  rfl

/-! ### One call after another -/

lemma run_cons (limit : ℤ) (stats : Stats) (source : String) (sources : List String) :
    run limit stats (source :: sources) =
      ((parse limit source).verdict, stats.add (parse limit source).visits) ::
        run limit (stats.add (parse limit source).visits) sources := by
  have hadd := Counters.add_between [] [] stats (parse limit source).visits
  rw [run, runOn, call_eq]
  dsimp only [List.nil_append, List.length_nil] at hadd ⊢
  rw [hadd]
  rfl

/-- A session among the counts of others is the session alone, and leaves the counts of
the others as they are. -/
theorem runOn_between (limit : ℤ) (before after : List Stats) (stats : Stats)
    (sources : List String) :
    runOn limit before.length ⟨before ++ stats :: after⟩ sources =
      (run limit stats sources).map fun step => (step.1, ⟨before ++ step.2 :: after⟩) := by
  induction sources generalizing stats with
  | nil => rfl
  | cons source sources ih => rw [run_cons, List.map_cons, runOn, call_eq, Counters.add_between, ih]

/-- Each outcome is that of a call with counts of its own. -/
theorem run_outcomes (limit : ℤ) (stats : Stats) (sources : List String) (counters : Counters) :
    (run limit stats sources).map Prod.fst =
      sources.map fun source => (fresh limit counters source).1 := by
  induction sources generalizing stats with
  | nil => rfl
  | cons source sources ih => rw [run_cons, List.map_cons, List.map_cons, ih, fresh_eq]

/-- How often calls with counts of their own count a rule, all together. -/
def freshTotal (limit : ℤ) (counters : Counters) (rule : String) (sources : List String) : ℕ :=
  (sources.map fun source => (fresh limit counters source).2.count rule).sum

/-- After each call the counts are the sums of those of fresh calls. -/
theorem run_counts (limit : ℤ) (stats : Stats) (sources : List String) (counters : Counters)
    {i : ℕ} {step : Verdict Parsed × Stats} (h : (run limit stats sources)[i]? = some step)
    (rule : String) :
    step.2.count rule =
      stats.count rule + freshTotal limit counters rule (sources.take (i + 1)) := by
  induction sources generalizing stats i with
  | nil => cases h
  | cons source sources ih =>
      rw [run_cons] at h
      have hcall := Stats.count_add stats (parse limit source).visits rule
      rw [← fresh_count limit counters] at hcall
      rw [freshTotal, List.take_succ_cons, List.map_cons, List.sum_cons]
      cases i with
      | zero =>
          obtain rfl := Option.some.inj h
          rw [List.take_zero, List.map_nil, List.sum_nil, hcall, Nat.add_zero]
      | succ i =>
          have hrest := ih _ h
          rw [hcall, freshTotal] at hrest
          omega

/-- After the last call the counts are the sums of those of all fresh calls. -/
lemma finalStats_count (limit : ℤ) (stats : Stats) (counters : Counters) (hne : sources ≠ [])
    (rule : String) :
    (finalStats (run limit stats sources)).count rule =
      stats.count rule + freshTotal limit counters rule sources := by
  have hlength : (run limit stats sources).length = sources.length := by
    simpa using congrArg List.length (run_outcomes limit stats sources counters)
  have hpos := List.length_pos_iff.mpr hne
  have hlt : sources.length - 1 < (run limit stats sources).length := by omega
  have hlast := List.getElem?_eq_getElem hlt
  rw [finalStats, List.getLast?_eq_getElem?, hlength, hlast]
  dsimp only
  rw [run_counts limit stats sources counters hlast rule, List.take_of_length_le (by omega)]

/-! ### Sessions -/

/-- The calls of a session do not touch each other. They are compared with calls that
have counts of their own, beside whatever counts are in use. -/
structure Independent (limit : ℤ) (stats : Stats) (sources : List String) : Prop where
  /-- each outcome is that of a call with counts of its own -/
  outcomes : ∀ counters, (run limit stats sources).map Prod.fst =
    sources.map fun source => (fresh limit counters source).1
  /-- after each call the counts are the sums of those of fresh calls -/
  counts : ∀ counters i step, (run limit stats sources)[i]? = some step → ∀ rule,
    step.2.count rule = stats.count rule +
      ((sources.take (i + 1)).map fun source => (fresh limit counters source).2.count rule).sum
  /-- a source that has no tokens adds nothing to them -/
  untokenized : ∀ counters source e, tokenize source = .error e →
    ∀ rule, (fresh limit counters source).2.count rule = 0
  /-- in another order the sources keep their outcomes, and the last counts are the
  same -/
  permuted : ∀ sources', sources.Perm sources' →
    (sources.zip ((run limit stats sources).map Prod.fst)).Perm
      (sources'.zip ((run limit stats sources').map Prod.fst)) ∧
    ∀ rule, (finalStats (run limit stats sources)).count rule =
      (finalStats (run limit stats sources')).count rule
  /-- among the counts of others the session is the same, and leaves those alone -/
  apart : ∀ before after,
    runOn limit before.length ⟨before ++ stats :: after⟩ sources =
      (run limit stats sources).map fun step => (step.1, ⟨before ++ step.2 :: after⟩)
  /-- a fresh call gives the verdict of a parse that keeps a log, and counts that log -/
  logged : ∀ counters source, fresh limit counters source =
    ((parse limit source).verdict, Stats.empty.add (parse limit source).visits)

/-- Sources with their outcomes are in the order of the sources. -/
lemma zip_outcomes (limit : ℤ) (stats : Stats) (sources : List String) (counters : Counters) :
    sources.zip ((run limit stats sources).map Prod.fst) =
      sources.map fun source => (source, (fresh limit counters source).1) := by
  rw [run_outcomes limit stats sources counters]
  induction sources with
  | nil => rfl
  | cons source sources ih => rw [List.map_cons, List.zip_cons_cons, ih, List.map_cons]

/-- In another order the last counts are the same. -/
lemma finalStats_perm (limit : ℤ) (stats : Stats) (h : sources.Perm sources') (rule : String) :
    (finalStats (run limit stats sources)).count rule =
      (finalStats (run limit stats sources')).count rule := by
  by_cases hne : sources = []
  · subst hne
    rw [List.nil_perm.mp h]
  · have hne' : sources' ≠ [] := fun hnil => hne (List.perm_nil.mp (hnil ▸ h))
    rw [finalStats_count limit stats ⟨[]⟩ hne, finalStats_count limit stats ⟨[]⟩ hne',
      freshTotal, freshTotal, (h.map _).sum_nat]

end Session

/-- **The calls of a session do not touch each other.** Each ends as it would with
counts of its own, and counts what it would count there. -/
theorem session_independent (limit : ℤ) (stats : Stats) (sources : List String) :
    Session.Independent limit stats sources where
  outcomes := Session.run_outcomes limit stats sources
  counts := fun counters _ _ h => Session.run_counts limit stats sources counters h
  untokenized := fun counters _ _ h => Session.fresh_error h limit counters
  permuted := fun sources' h => by
    refine ⟨?_, Session.finalStats_perm limit stats h⟩
    rw [Session.zip_outcomes limit stats sources ⟨[]⟩,
      Session.zip_outcomes limit stats sources' ⟨[]⟩]
    exact h.map _
  apart := fun before after => Session.runOn_between limit before after stats sources
  logged := Session.fresh_eq limit

end ArrayExpr
