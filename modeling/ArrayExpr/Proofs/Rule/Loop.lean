/-
Repetitions on a bound, and round by round.

* `Rule.loop`: a repetition on a bound of its own, with a rule that stands in for the
  rounds beyond it;
* `Rule.RunsDown`: every round that goes on leaves fewer tokens ahead, so that a bound
  above their number is never met;
* `Rule.collect_run`, `Rule.many_run`: **a repetition is its first round and the
  repetition after it**, the visits included.
-/
import ArrayExpr.Proofs.Rule.Reads

namespace ArrayExpr

namespace Rule

variable {α β σ : Type} {r : Rule α} {s : TokenStream}

/-! ### Loops on a bound -/

/-- Rules in a row differ only where the second one is run. -/
lemma bind_run_congr {f f' : α → Rule β} (h : ∀ a rest, r.Gives s a rest → f a rest = f' a rest) :
    (r >>= f) s = (r >>= f') s := by
  rw [bind_run, bind_run]
  simp only [Gives] at h
  generalize r s = run at h
  obtain ⟨⟨a, rest⟩ | g | n, visits⟩ := run
  · exact congrArg (Run.afterVisits visits) (h a rest rfl)
  · rfl
  · rfl

/-- Repeats a step until it gives nothing, for fewer than `fuel` rounds; `stuck` stands
in for the others. -/
def loop (stuck : Rule (List β)) (step : σ → Rule (Option (β × σ))) : (fuel : ℕ) → σ →
    Rule (List β)
  | 0, _ => stuck
  | fuel + 1, state => do
    match ← step state with
    | none => return []
    | some (b, next) =>
      let rest ← loop stuck step fuel next
      return b :: rest

/-- From a stream on, every round of a repetition that goes on reads a token. -/
def ReadingFrom (step : σ → Rule (Option (β × σ))) (s : TokenStream) : Prop :=
  ∀ v s₀, s.Passes v s₀ → ∀ state b next s₁, (step state).Gives s₀ (some (b, next)) s₁ →
    ∃ w, w ≠ [] ∧ s₀.Passes w s₁

section ReadingFrom

variable {step : σ → Rule (Option (β × σ))}

lemma Reading.readingFrom (hstep : Reading step) (hs : s.Ordered) : ReadingFrom step s :=
  fun _ s₀ hp state b next s₁ h => hstep state s₀ b next s₁ (hs.passes hp) h

lemma ReadingFrom.passes {w : List Token} {s' : TokenStream} (hstep : ReadingFrom step s)
    (hp : s.Passes w s') : ReadingFrom step s' :=
  fun _ s₀ hq => hstep _ s₀ (hp.append hq)

lemma ReadingFrom.shortens {state next : σ} {b : β} {s₁ : TokenStream}
    (hstep : ReadingFrom step s) (h : (step state).Gives s (some (b, next)) s₁) :
    ReadingFrom step s₁ ∧ s₁.ahead.length < s.ahead.length := by
  obtain ⟨w, hw, hp⟩ := hstep [] s rfl _ _ _ _ h
  have hlen := List.length_pos_iff.mpr hw
  refine ⟨hstep.passes hp, ?_⟩
  rw [hp.ahead_eq, List.length_append]
  omega

/-- **A step that reads where it goes on is not stuck**, if it may be repeated more often
than there are tokens. -/
lemma loop_eq_collectWithin (hstep : ReadingFrom step s) (stuck : Rule (List β)) {fuel : ℕ}
    {tokens : List Token} (state : σ) (hfuel : s.ahead.length < fuel)
    (htokens : s.ahead.length ≤ tokens.length) :
    loop stuck step fuel state s = collectWithin step tokens state s := by
  induction fuel generalizing tokens state s with
  | zero => omega
  | succ fuel ih =>
      rw [loop]
      cases tokens with
      | nil =>
          rw [collectWithin]
          refine bind_run_congr fun next s₁ h => ?_
          rcases next with _ | ⟨b, next⟩
          · rfl
          · -- no token is left for a round that goes on
            have hlt := (hstep.shortens h).2
            rw [List.length_nil] at htokens
            omega
      | cons t tokens =>
          rw [collectWithin]
          refine bind_run_congr fun next s₁ h => ?_
          rcases next with _ | ⟨b, next⟩
          · rfl
          · obtain ⟨hs₁, hlt⟩ := hstep.shortens h
            rw [List.length_cons] at htokens
            change (loop stuck step fuel next >>= _) s₁ = (collectWithin step tokens next >>= _) s₁
            have hrest : loop stuck step fuel next s₁ = collectWithin step tokens next s₁ :=
              ih hs₁ next (by omega) (by omega)
            rw [bind_run, bind_run, hrest]

end ReadingFrom

/-- In front of a stream a repetition runs down: a round that goes on leaves fewer tokens
ahead, and more rounds than there are tokens are never made. -/
structure RunsDown (step : σ → Rule (Option (β × σ))) (s : TokenStream) : Prop where
  shortens : ∀ {state b next s₁}, (step state).Gives s (some (b, next)) s₁ →
    s₁.ahead.length < s.ahead.length
  suffices_fuel : ∀ (stuck : Rule (List β)) {fuel : ℕ} (state : σ), s.ahead.length < fuel →
    loop stuck step fuel state s = collect step state s

lemma Reading.runsDown {step : σ → Rule (Option (β × σ))} (hstep : Reading step)
    (hs : s.Ordered) : RunsDown step s where
  shortens := fun h => (hstep.shortens hs h).2
  suffices_fuel := fun stuck _ state hfuel =>
    loop_eq_collectWithin (hstep.readingFrom hs) stuck state hfuel le_rfl

/-- A step without state as one with the state `()`. -/
def stateless (step : Rule (Option β)) : Unit → Rule (Option (β × Unit)) :=
  fun _ => return (← step).map (·, ())

/-- A repetition without state is one with the state `()`. -/
lemma many_eq_collect (step : Rule (Option β)) : many step = collect (stateless step) () := rfl

/-! ### One round and the others -/

/-- **A repetition is its first round and the repetition after it.** -/
lemma collect_run {step : σ → Rule (Option (β × σ))} (hstep : ReadingFrom step s) (state : σ) :
    collect step state s = (do
      match ← step state with
      | none => return []
      | some (b, next) => return b :: (← collect step next)) s := by
  have hloop := fun {s₁ : TokenStream} (hstep : ReadingFrom step s₁) (state : σ) {fuel : ℕ}
      (hfuel : s₁.ahead.length < fuel) =>
    loop_eq_collectWithin hstep (pure []) state hfuel (le_refl s₁.ahead.length)
  rw [collect, ← hloop hstep state (Nat.lt_succ_self _)]
  refine bind_run_congr fun next s₁ h => ?_
  rcases next with _ | ⟨b, next⟩
  · rfl
  · obtain ⟨hs₁, hlt⟩ := hstep.shortens h
    change (loop (pure []) step s.ahead.length next >>= _) s₁ = (collect step next >>= _) s₁
    rw [bind_run, bind_run, hloop hs₁ next hlt, collect]

/-- **A repetition without state**, likewise. -/
lemma many_run {step : Rule (Option β)}
    (hstep : ∀ {v s₀ b s₁}, s.Passes v s₀ → step.Gives s₀ (some b) s₁ →
      ∃ w, w ≠ [] ∧ s₀.Passes w s₁) :
    many step s = (do
      match ← step with
      | none => return []
      | some b => return b :: (← many step)) s := by
  have hfrom : ReadingFrom (stateless step) s := by
    intro v s₀ hp state b next s₁ h
    obtain ⟨_ | b', s₂, h, h'⟩ := gives_bind.mp h
    · simp at h'
    · obtain ⟨-, rfl⟩ := gives_pure.mp h'
      exact hstep hp h
  rw [many_eq_collect]
  refine (collect_run hfrom ()).trans ?_
  change ((step >>= fun found => pure (found.map (·, ()))) >>= _) s = _
  simp only [bind_assoc, pure_bind]
  refine bind_run_congr fun found s₁ _ => ?_
  cases found <;> rfl

end Rule

end ArrayExpr
