/-
Failures in terms of the reference machine.

* `Failure.StopsAt`: a failure at the token ahead, or at the end of input;
* `Failure.Asks`: what a failure at the end of input asks for: to close the
  innermost open bracket, or something else;
* `Parser.Offends`: what is wrong with the token ahead in a state of the
  machine, and the failure that reports it;
* `Parser.Faults`: the machine goes on to a state in which the token ahead
  offends;
* `Parser.ItemSteps`, `ItemSteps.gives_list`, `ItemSteps.faults_list`: a list
  takes the machine from item to item, and fails where the machine does.
-/
import ArrayExpr.Proofs.Parser.Reading
import ArrayExpr.Proofs.Reference.Closers

namespace ArrayExpr

/-- A failure at the token ahead, or at the end of input. -/
structure Failure.StopsAt (g : Failure) (s : TokenStream) : Prop where
  offset : g.offset = s.offset
  unexpected : s.atEnd = false → g.kind = .unexpectedToken
  finish : s.atEnd = true → g.kind = .unexpectedEndOfInput ∨ g.kind = .unterminatedBracket

lemma Failure.unexpected_stopsAt (s : TokenStream) (e : Expectation) :
    (Failure.unexpected s e).StopsAt s :=
  ⟨rfl, fun h => by simp [Failure.unexpected, Failure.ofKind, h],
    fun h => by simp [Failure.unexpected, Failure.ofKind, h]⟩

/-- A closing bracket that is missing. -/
lemma Failure.closing_stopsAt (s : TokenStream) (e e' : Expectation) :
    Failure.StopsAt (if s.atEnd then .ofKind .unterminatedBracket s e else .unexpected s e') s := by
  cases h : s.atEnd with
  | false => exact Failure.unexpected_stopsAt s e'
  | true => exact ⟨rfl, by simp [h], fun _ => Or.inr rfl⟩

/-- What a failure asks for, after the tokens `w` and in the state `q`: to close the
innermost open bracket exactly if the machine lets it be closed. -/
structure Failure.Asks (g : Failure) (w : List Token) (q : Reference.State) : Prop where
  closable_iff : g.kind = .unterminatedBracket ↔ q.Closable
  opener : g.kind = .unterminatedBracket → ∃ o outer, unclosed w = o :: outer ∧
    g.expected = .closing o.kind.closer.describe o

/-- Where no bracket may be closed something else is missing. -/
lemma Failure.unexpected_asks {q : Reference.State} (hq : ¬ q.Closable) (s : TokenStream)
    (e : Expectation) (w : List Token) : (Failure.unexpected s e).Asks w q := by
  have hk : (Failure.unexpected s e).kind ≠ .unterminatedBracket := by
    rw [Failure.unexpected, Failure.ofKind]
    split_ifs <;> simp
  exact ⟨iff_of_false hk hq, fun h => absurd h hk⟩

/-- Where a bracket may be closed the failure asks for it. -/
lemma Failure.closing_asks {q : Reference.State} {s : TokenStream} {w outer : List Token}
    {o : Token} (hq : q.Closable) (hw : unclosed w = o :: outer) :
    (Failure.ofKind .unterminatedBracket s (.closing o.kind.closer.describe o)).Asks w q :=
  ⟨iff_of_true rfl hq, fun _ => ⟨o, outer, hw, rfl⟩⟩

namespace Parser

open Rule Grammar Reference

variable {cap n : ℕ} {h v w : List Token} {s s' s₁ : TokenStream} {q q' q₁ : State}
  {g g' : Failure} {p : Pending} {br : List Bracket} {x : Outline}

/-! ### Offences -/

/-- After the tokens `w` and in the state `q` the token ahead offends, and `g`
reports it: no sentence goes on with it; it is a `=` after an operand that is
no target; or it is a bracket too much. -/
inductive Offends (cap : ℕ) (w : List Token) (q : State) (s : TokenStream) (g : Failure) : Prop
  | stops (hq : q.sentence? = none) (hstep : ∀ t, s.peek? = some t → stepUsual q t = none)
      (hg : g.StopsAt s) (hask : s.atEnd = true → g.Asks w q)
  | target {t : Token} {v : List Token} {e : Expr} (ht : s.peek? = some t)
      (hk : t.kind = .assign) (hstep : stepUsual q t ≠ none) (hv : LeftOperand w v e)
      (he : ¬ IsTarget e) (hg : g.kind = .invalidAssignmentTarget)
      (ho : g.offset = (extent v).start)
  | depth {t : Token} (ht : s.peek? = some t) (hk : t.kind.isOpening = true)
      (hstep : stepUsual q t ≠ none) (hd : cap ≤ q.brackets.length) (hg : g.kind = .nestingTooDeep)
      (ho : g.offset = s.advance.offset)

/-- From the state `q`, reached with the tokens `h`, the machine goes on to a
state in which the token ahead offends. -/
def Faults (cap : ℕ) (h : List Token) (s : TokenStream) (q : State) (g : Failure) : Prop :=
  ∃ w s₁ q₁, s.Passes w s₁ ∧ Steps True cap q w q₁ ∧ Offends cap (h ++ w) q₁ s₁ g

lemma Faults.here (hg : Offends cap h q s g) : Faults cap h s q g :=
  ⟨[], s, q, rfl, .nil q, by rwa [List.append_nil]⟩

/-- What is at fault later is at fault. -/
lemma Faults.after (hp : s.Passes v s₁) (hs : Steps True cap q v q₁)
    (hg : Faults cap (h ++ v) s₁ q₁ g) : Faults cap h s q g := by
  obtain ⟨w, s₂, q₂, hw, hs₂, ho⟩ := hg
  exact ⟨v ++ w, s₂, q₂, hp.append hw, hs.append hs₂, by rwa [← List.append_assoc]⟩

/-- The name of an alternative and the token found play no part. -/
lemma Faults.congr (hg : Faults cap h s q g) (hk : g'.kind = g.kind)
    (ho : g'.offset = g.offset) (he : g'.expected = g.expected) : Faults cap h s q g' := by
  obtain ⟨w, s₁, q₁, hw, hs, hoff⟩ := hg
  refine ⟨w, s₁, q₁, hw, hs, ?_⟩
  cases hoff with
  | stops hq hstep hg hask =>
      refine .stops hq hstep ⟨ho.trans hg.offset, fun hend => hk.trans (hg.unexpected hend),
        fun hend => by rw [hk]; exact hg.finish hend⟩ fun hend => ?_
      obtain ⟨hiff, hopener⟩ := hask hend
      exact ⟨by rw [hk]; exact hiff, by rw [hk, he]; exact hopener⟩
  | target ht hk' hstep hv htarget hg ho' =>
      exact .target ht hk' hstep hv htarget (hk.trans hg) (ho.trans ho')
  | depth ht hk' hstep hd hg ho' =>
      exact .depth ht hk' hstep hd (hk.trans hg) (ho.trans ho')

lemma Faults.inAlternative (hg : Faults cap h s q g) (name : String) :
    Faults cap h s q (g.inAlternative name) :=
  hg.congr (Failure.inAlternative_kind g name) (Failure.inAlternative_offset g name)
    (Failure.inAlternative_expected g name)

/-- Where no expression begins the machine wants one, or the bracket ends. -/
lemma step_want_of_not_starts {t : Token} (ht : t.kind.startsOperand = false) :
    stepUsual (.want p br) t = if p.isNothing then endEmpty t.kind br else none := by
  rw [stepUsual_want, stepWant]
  split <;> simp_all [Kind.startsOperand]

lemma starts_of_peek {t : Token} (ht : s.peek? = some t)
    (hk : s.current.kind.startsOperand = false) : t.kind.startsOperand = false := by
  rwa [TokenStream.current_of_peek ht] at hk

/-- An operand that is missing after an operator offends. -/
lemma offends_missing (hp : p.isNothing = false) (hk : s.current.kind.startsOperand = false)
    (e : Expectation) : Offends cap h (.want p br) s (.unexpected s e) := by
  have hclose : ¬ (State.want p br).Closable := by
    rw [closable_want_iff, hp]
    exact fun hc => Bool.noConfusion hc.1
  refine .stops rfl (fun t ht => ?_) (Failure.unexpected_stopsAt s e)
    fun _ => Failure.unexpected_asks hclose s e h
  rw [step_want_of_not_starts (starts_of_peek ht hk), hp]
  rfl

/-- An item that is missing where the bracket may not end offends. -/
lemma offends_item (hk : s.current.kind.startsOperand = false)
    (hend : ∀ kind, endEmpty kind br = none) (e : Expectation) :
    Offends cap h (.want .nothing br) s (.unexpected s e) := by
  have hclose : ¬ (State.want .nothing br).Closable := by
    rw [closable_want_iff]
    rintro ⟨-, kind, -, hne⟩
    exact hne (hend kind)
  refine .stops rfl (fun t ht => ?_) (Failure.unexpected_stopsAt s e)
    fun _ => Failure.unexpected_asks hclose s e h
  rw [step_want_of_not_starts (starts_of_peek ht hk), hend t.kind, ite_self]

/-- A failure that leaves room for another rule stands further into the input. -/
def Beyond (g : Failure) (s : TokenStream) : Prop := g.isRecoverable = true → s.offset < g.offset

lemma Beyond.not_declinesAt (hg : Beyond g s) : g.declinesAt s = false := by
  rw [Failure.declinesAt, Bool.and_eq_false_iff]
  cases hrec : g.isRecoverable with
  | false => exact Or.inl rfl
  | true => exact Or.inr (by simpa using (hg hrec).ne')

lemma Beyond.inAlternative (hg : Beyond g s) (name : String) :
    Beyond (g.inAlternative name) s := by
  rw [Beyond, Failure.isRecoverable, Failure.inAlternative_kind, Failure.inAlternative_offset]
  exact hg

/-- After the first token of an expression a fault stands further into the
input. -/
lemma Faults.beyond (hs : s.Ordered) (hk : s.current.kind.startsOperand = true)
    (hg : Faults cap h s (.want p br) g) : Beyond g s := by
  obtain ⟨w, s₁, q₁, hw, hsteps, hoff⟩ := hg
  intro hrec
  cases hoff with
  | target _ _ _ _ _ hg | depth _ _ _ _ hg =>
      rw [Failure.isRecoverable, hg] at hrec
      cases hrec
  | stops hq hstep hg =>
      rw [hg.offset]
      refine hs.offset_lt hw ?_
      rintro rfl
      rw [TokenStream.passes_nil_iff] at hw
      rw [steps_nil_iff] at hsteps
      subst hw hsteps
      have hne : s₁.current.kind ≠ .finish := fun hf => by
        rw [hf] at hk
        cases hk
      have hnone := hstep _ (hs.peek_current hne)
      rw [stepUsual_want, stepWant] at hnone
      split at hnone <;> simp_all [Kind.startsOperand]

/-- After the first token of an expression a fault is no reason to try another
rule. -/
lemma Faults.not_declinesAt (hs : s.Ordered) (hk : s.current.kind.startsOperand = true)
    (hg : Faults cap h s (.want p br) g) : g.declinesAt s = false :=
  (hg.beyond hs hk).not_declinesAt

/-! ### Lists -/

section List

variable {α σ : Type} {item : Rule α} {separator : Kind} {begins : σ → State}
  {ends : σ → State → Kind → Prop} {full : σ → Prop} {k : σ} {empty : Bool}

/-- How an item takes the machine along: where it begins, in which states it
may end in front of a token, and that a separator leads to the next one. After
a separator the list is `full`. -/
structure ItemSteps (cap : ℕ) (item : Rule α) (separator : Kind) (begins : σ → State)
    (ends : σ → State → Kind → Prop) (full : σ → Prop) : Prop where
  declines : item.Declines
  wants : ∀ k, ∃ p br, begins k = .want p br
  passes : ∀ {s a s'}, s.Ordered → item.Gives s a s' → ∃ w, s.Passes w s'
  gives : ∀ {h s k a s'}, s.Ordered → Explains h (begins k) → item.Gives s a s' →
    ∃ w q, s.Passes w s' ∧ Steps True cap (begins k) w q ∧ ends k q s'.current.kind
  faults : ∀ {h s k g}, s.Ordered → Explains h (begins k) →
    s.current.kind.startsOperand = true → item.Refuses s g → Faults cap h s (begins k) g
  separates : ∀ {k q t}, ends k q separator → t.kind = separator →
    ∃ k', Admits True cap q t ∧ stepUsual q t = some (begins k') ∧ full k'

/-- Where the machine stands after a list, in front of a token: behind an item
that no separator follows, or where an item is missing. -/
def ListEnds (separator : Kind) (begins : σ → State) (ends : σ → State → Kind → Prop)
    (full : σ → Prop) (empty : Bool) (k : σ) (q : State) (kind : Kind) : Prop :=
  (∃ k', ends k' q kind ∧ kind ≠ separator) ∨
    ∃ k', q = begins k' ∧ kind.startsOperand = false ∧ (full k' ∨ empty = true ∧ k' = k)

/-- Where an item is refused at its beginning nothing begins. -/
lemma ItemSteps.starts_iff (hi : ItemSteps cap item separator begins ends full)
    (hs : s.Ordered) (hexp : Explains h (begins k)) (hg : item.Refuses s g) :
    s.current.kind.startsOperand = true ↔ g.declinesAt s = false := by
  constructor
  · intro hk
    have hf := hi.faults hs hexp hk hg
    obtain ⟨p, br, hb⟩ := hi.wants k
    rw [hb] at hf
    exact hf.not_declinesAt hs hk
  · intro hd
    by_contra hk
    rw [Bool.not_eq_true] at hk
    rw [hg.unique (hi.declines s hs hk), unexpected_declinesAt] at hd
    cases hd

/-- A separator leads the machine to the next item. -/
lemma ItemSteps.step_separator (hi : ItemSteps cap item separator begins ends full)
    (hsep : separator ≠ .finish) (hs : s.Ordered) (hq : ends k q s.current.kind)
    (hk : s.current.kind = separator) :
    ∃ k', s.Passes [s.current] s.advance ∧ Steps True cap q [s.current] (begins k') ∧ full k' := by
  rw [hk] at hq
  obtain ⟨k', ha, hstep, hfull⟩ := hi.separates hq hk
  exact ⟨k', passes_advance hs hk hsep, steps_one ha hstep, hfull⟩

lemma ItemSteps.reading (hi : ItemSteps cap item separator begins ends full)
    (hsep : separator ≠ .finish) (empty : Bool) :
    ReadingRounds (furtherItem ⟨true, empty⟩ separator item) :=
  reading_furtherItem hsep hi.passes

/-- Items after the first one take the machine along. -/
lemma ItemSteps.rounds (hi : ItemSteps cap item separator begins ends full)
    (hsep : separator ≠ .finish) (hs : s.Ordered) (hexp : Explains h q) {bs : List α}
    (hr : Rounds (furtherItem ⟨true, empty⟩ separator item) s bs s₁)
    (hq : ends k q s.current.kind) :
    ∃ w k' q', s.Passes w s₁ ∧ Steps True cap q w q' ∧ ends k' q' s₁.current.kind := by
  induction hr generalizing h k q with
  | refl s => exact ⟨[], k, q, rfl, .nil q, hq⟩
  | @round s s₁ s₂ b bs hround _ ih =>
      obtain ⟨hk, hitem⟩ := gives_furtherItem_some.mp hround
      obtain ⟨k₁, hp, hsteps, -⟩ := hi.step_separator hsep hs hq hk
      have hexp₁ := hexp.steps hsteps
      obtain ⟨w, q₁, hw, hsteps', hq₁⟩ := hi.gives (hs.passes hp) hexp₁ hitem
      obtain ⟨w', k₂, q₂, hw', hsteps'', hq₂⟩ :=
        ih ((hs.passes hp).passes hw) (hexp₁.steps hsteps') hq₁
      exact ⟨_, k₂, q₂, (hp.append hw).append hw', (hsteps.append hsteps').append hsteps'', hq₂⟩

lemma ItemSteps.gives_further (hi : ItemSteps cap item separator begins ends full)
    (hsep : separator ≠ .finish) (hs : s.Ordered) (hexp : Explains h q) (k₀ : σ) {bs : List α}
    (hq : ends k q s.current.kind)
    (hg : (many (furtherItem ⟨true, empty⟩ separator item)).Gives s bs s') :
    ∃ w q', s.Passes w s' ∧ Steps True cap q w q' ∧
      ListEnds separator begins ends full empty k₀ q' s'.current.kind := by
  obtain ⟨s₁, hr, hnone⟩ := (gives_many (hi.reading hsep empty) hs).mp hg
  obtain ⟨w, k₁, q₁, hw, hsteps, hq₁⟩ := hi.rounds hsep hs hexp hr hq
  rcases gives_furtherItem_none.mp hnone with ⟨hk, rfl⟩ | ⟨hk, rfl, g, hg, hd⟩
  · exact ⟨w, q₁, hw, hsteps, Or.inl ⟨k₁, hq₁, hk⟩⟩
  · obtain ⟨k₂, hp, hstep, hfull⟩ := hi.step_separator hsep (hs.passes hw) hq₁ hk
    have hiff := hi.starts_iff ((hs.passes hw).passes hp)
      ((hexp.steps hsteps).steps hstep) hg
    rw [hd, Bool.true_eq_false, iff_false, Bool.not_eq_true] at hiff
    exact ⟨_, _, hw.append hp, hsteps.append hstep, Or.inr ⟨k₂, rfl, hiff, Or.inl hfull⟩⟩

lemma ItemSteps.faults_further (hi : ItemSteps cap item separator begins ends full)
    (hsep : separator ≠ .finish) (hs : s.Ordered) (hexp : Explains h q)
    (hq : ends k q s.current.kind)
    (hg : (many (furtherItem ⟨true, empty⟩ separator item)).Refuses s g) : Faults cap h s q g := by
  obtain ⟨bs, s₁, hr, hg⟩ := refuses_many (hi.reading hsep empty) hs hg
  obtain ⟨w, k₁, q₁, hw, hsteps, hq₁⟩ := hi.rounds hsep hs hexp hr hq
  obtain ⟨hk, hg, hd⟩ := refuses_furtherItem.mp hg
  obtain ⟨k₂, hp, hstep, -⟩ := hi.step_separator hsep (hs.passes hw) hq₁ hk
  have hs₂ := (hs.passes hw).passes hp
  have hexp₂ := (hexp.steps hsteps).steps hstep
  have hstarts := (hi.starts_iff hs₂ hexp₂ hg).mpr hd
  refine Faults.after (hw.append hp) (hsteps.append hstep) ?_
  rw [← List.append_assoc]
  exact hi.faults hs₂ hexp₂ hstarts hg

/-- **A list takes the machine along.** -/
lemma ItemSteps.gives_list (hi : ItemSteps cap item separator begins ends full)
    (hsep : separator ≠ .finish) (hs : s.Ordered) (hexp : Explains h (begins k)) {name : String}
    {as : List α} (hg : (separatedList name ⟨true, empty⟩ separator item).Gives s as s') :
    ∃ w q, s.Passes w s' ∧ Steps True cap (begins k) w q ∧
      ListEnds separator begins ends full empty k q s'.current.kind := by
  obtain ⟨-, he, rfl, g, hg', hd⟩ | ⟨a, s₁, bs, -, hfirst, hbs⟩ := gives_items.mp hg
  · have hiff := hi.starts_iff hs hexp hg'
    rw [hd, Bool.true_eq_false, iff_false, Bool.not_eq_true] at hiff
    exact ⟨[], _, rfl, .nil _, Or.inr ⟨k, rfl, hiff, Or.inr ⟨he, rfl⟩⟩⟩
  · obtain ⟨w, q₁, hw, hsteps, hq⟩ := hi.gives hs hexp hfirst
    obtain ⟨w', q', hw', hsteps', hend⟩ :=
      hi.gives_further hsep (hs.passes hw) (hexp.steps hsteps) k hq hbs
    exact ⟨_, q', hw.append hw', hsteps.append hsteps', hend⟩

/-- **A list fails where the machine does.** -/
lemma ItemSteps.faults_list (hi : ItemSteps cap item separator begins ends full)
    (hsep : separator ≠ .finish) (hs : s.Ordered) (hexp : Explains h (begins k)) {name : String}
    (hstart : empty = true ∨ s.current.kind.startsOperand = true)
    (hg : (separatedList name ⟨true, empty⟩ separator item).Refuses s g) :
    Faults cap h s (begins k) g := by
  obtain ⟨hg, hd⟩ | ⟨a, s₁, hfirst, hg⟩ := refuses_items.mp hg
  · have hk : s.current.kind.startsOperand = true := by
      rcases hstart with he | hk
      · exact (hi.starts_iff hs hexp hg).mpr (hd he)
      · exact hk
    exact hi.faults hs hexp hk hg
  · obtain ⟨w, q₁, hw, hsteps, hq⟩ := hi.gives hs hexp hfirst
    exact (hi.faults_further hsep (hs.passes hw) (hexp.steps hsteps) hq hg).after hw hsteps

end List

end Parser

end ArrayExpr
