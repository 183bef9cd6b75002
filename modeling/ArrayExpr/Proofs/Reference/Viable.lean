/-
The beginnings of sentences.

* `Grammar.Viable`: a word that can be extended to a sentence; `viable_iff`:
  these are the words that the reference machine takes;
* `Steps.openBrackets_eq`: the machine keeps the brackets that a word leaves
  open;
* `Explains.leftOperand`: with an operand in hand the machine has read the
  left operand that a `=` would take;
* `Grammar.SyntaxProblem`, `TargetProblem`, `DepthProblem`: what may be wrong
  with a token; `Steps.no_problem`: tokens that the machine takes under the
  conditions of a parse have no problem.
-/
import ArrayExpr.Proofs.Grammar.LeftOperand
import ArrayExpr.Proofs.Reference.Soundness

namespace ArrayExpr

namespace Grammar

/-- A word that is an expression. -/
def IsSentence (w : List Token) : Prop := ∃ e, Derives .assignment w e

/-- A word that can be extended to an expression. -/
def Viable (w : List Token) : Prop := ∃ v, IsSentence (w ++ v)

/-- The tokens before `i` are viable, and with the one at `i` they are not; at
the end they are no sentence. -/
def SyntaxProblem (items : List Token) (i : ℕ) : Prop :=
  Viable (items.take i) ∧
    (i < items.length ∧ ¬ Viable (items.take (i + 1)) ∨ i = items.length ∧ ¬ IsSentence items)

/-- The token at `i` is a viable `=`, and its left operand `v` is no target. -/
def TargetProblem (items : List Token) (i : ℕ) (v : List Token) : Prop :=
  ∃ t e, items[i]? = some t ∧ t.kind = .assign ∧ Viable (items.take (i + 1)) ∧
    LeftOperand (items.take i) v e ∧ ¬ IsTarget e

/-- The token at `i` is a viable opening bracket, with which more than `limit`
brackets are open. -/
def DepthProblem (limit : ℕ) (items : List Token) (i : ℕ) : Prop :=
  ∃ t, items[i]? = some t ∧ t.kind.isOpening = true ∧ Viable (items.take (i + 1)) ∧
    limit < openBrackets (items.take (i + 1))

/-- One of the problems at a token. -/
def Problem (limit : ℕ) (items : List Token) (i : ℕ) : Prop :=
  SyntaxProblem items i ∨ (∃ v, TargetProblem items i v) ∨ DepthProblem limit items i

end Grammar

namespace Reference

open Grammar

variable {strict : Prop} {limit : ℕ} {t : Token} {u v w : List Token} {x : Outline}
  {p : Pending} {br : List Bracket} {q q' : State}

/-! ### Viable words -/

lemma isSentence_iff : IsSentence w ↔ ∃ q, Steps False 0 .start w q ∧ q.sentence? ≠ none := by
  constructor
  · rintro ⟨e, he⟩
    obtain ⟨q, hs, hq⟩ := exists_derives_iff.mp ⟨e, he, rfl⟩
    exact ⟨q, hs, by simp [hq]⟩
  · rintro ⟨q, hs, hq⟩
    obtain ⟨o, ho⟩ := Option.ne_none_iff_exists'.mp hq
    obtain ⟨e, he, -⟩ := exists_derives_iff.mpr ⟨q, hs, ho⟩
    exact ⟨e, he⟩

/-- The innermost bracket may be closed after an operand. -/
lemma exists_close (x : Outline) (p : Pending) (b : Bracket) (br : List Bracket) :
    ∃ t x' p', stepUsual (.hold x p (b :: br)) t = some (.hold x' p' br) := by
  cases b with
  | group outer => exact ⟨⟨.closeParen, none, .origin, 0⟩, _, outer, rfl⟩
  | args outer callee items => exact ⟨⟨.closeParen, none, .origin, 0⟩, _, outer, rfl⟩
  | subscripts outer base items => exact ⟨⟨.closeBracket, none, .origin, 0⟩, _, outer, rfl⟩
  | array outer rows items => exact ⟨⟨.closeBracket, none, .origin, 0⟩, _, outer, rfl⟩

/-- After an operand a sentence ends once all brackets are closed. -/
lemma exists_sentence_hold (x : Outline) (p : Pending) (br : List Bracket) :
    ∃ v q, Steps False 0 (.hold x p br) v q ∧ q.sentence? ≠ none := by
  induction br generalizing x p with
  | nil => exact ⟨[], _, .nil _, by simp [State.sentence?]⟩
  | cons b br ih =>
      obtain ⟨t, x', p', ht⟩ := exists_close x p b br
      obtain ⟨v, q, hs, hq⟩ := ih x' p'
      exact ⟨t :: v, q, .cons (admits_false _ _) ht hs, hq⟩

/-- Every state goes on to a sentence. -/
lemma exists_sentence (q : State) : ∃ v q', Steps False 0 q v q' ∧ q'.sentence? ≠ none := by
  have hname : ∀ q x p br, stepUsual q ⟨.name, none, .origin, 0⟩ = some (.hold x p br) →
      ∃ v q', Steps False 0 q v q' ∧ q'.sentence? ≠ none := fun q x p br h => by
    obtain ⟨v, q', hs, hq⟩ := exists_sentence_hold x p br
    exact ⟨_ :: v, q', .cons (admits_false _ _) h hs, hq⟩
  cases q with
  | want p br => exact hname _ _ p br rfl
  | hold x p br => exact exists_sentence_hold x p br
  | field x p br => exact hname _ _ p br rfl

/-- **The words that the machine takes are the viable ones.** -/
theorem viable_iff : Viable w ↔ ∃ q, Steps False 0 .start w q := by
  constructor
  · rintro ⟨v, hv⟩
    obtain ⟨q, hs, -⟩ := isSentence_iff.mp hv
    obtain ⟨q₁, hs, -⟩ := steps_append_iff.mp hs
    exact ⟨q₁, hs⟩
  · rintro ⟨q, hs⟩
    obtain ⟨v, q', hs', hq⟩ := exists_sentence q
    exact ⟨v, isSentence_iff.mpr ⟨q', hs.append hs', hq⟩⟩

lemma viable_of_isPrefix (hw : Viable w) (hu : u <+: w) : Viable u := by
  obtain ⟨x, rfl⟩ := hu
  obtain ⟨v, hv⟩ := hw
  exact ⟨x ++ v, by rwa [← List.append_assoc]⟩

/-- A token keeps a viable word viable where the machine takes it. -/
lemma Steps.viable_concat_iff (h : Steps strict limit .start w q) :
    Viable (w ++ [t]) ↔ stepUsual q t ≠ none := by
  rw [viable_iff, Option.ne_none_iff_exists']
  constructor
  · rintro ⟨q', hs⟩
    obtain ⟨q₁, hs, hs'⟩ := steps_append_iff.mp hs
    obtain ⟨-, q₂, hq, -⟩ := steps_cons_iff.mp hs'
    exact ⟨q₂, h.unique hs ▸ hq⟩
  · rintro ⟨q', hq⟩
    exact ⟨q', h.weaken.append (steps_one (admits_false q t) hq)⟩

/-! ### Open brackets -/

/-- Brackets that a token opens. -/
def opened (kind : Kind) : ℕ := if kind.isOpening then 1 else 0

/-- Brackets that a token closes. -/
def closed (kind : Kind) : ℕ := if kind.isClosing then 1 else 0

lemma endItem_brackets {kind : Kind} (h : endItem kind x br = some q) :
    q.brackets.length + closed kind = br.length + opened kind := by
  rcases br with _ | ⟨_ | _ | _ | _, br⟩ <;> simp only [endItem] at h
  · cases h
  all_goals
    split_ifs at h <;> cases h <;>
      simp_all [State.brackets, opened, closed, Kind.isOpening, Kind.isClosing]

lemma endEmpty_brackets {kind : Kind} (h : endEmpty kind br = some q) :
    q.brackets.length + closed kind = br.length + opened kind := by
  rcases br with _ | ⟨_ | _ | _ | _, br⟩ <;> simp only [endEmpty] at h
  · cases h
  · cases h
  all_goals
    split_ifs at h <;> cases h <;>
      simp_all [State.brackets, opened, closed, Kind.isOpening, Kind.isClosing]

/-- A token opens or closes the brackets that it stands for. -/
lemma step_brackets (h : stepUsual q t = some q') :
    q'.brackets.length + closed t.kind = q.brackets.length + opened t.kind := by
  cases q with
  | want p br =>
      rw [stepUsual_want] at h
      rcases stepWant_cases h with ⟨⟨kind, ht⟩ | ht, rfl⟩ | ⟨ht, rfl⟩ | ⟨ht, rfl⟩ | ⟨ht, rfl⟩ |
        ⟨-, hend⟩
      case inr.inr.inr.inr => exact endEmpty_brackets hend
      all_goals simp [ht, State.brackets, opened, closed, Kind.isOpening, Kind.isClosing]
  | hold x p br =>
      rw [stepUsual_hold] at h
      rcases stepHold_cases h with ⟨ht, rfl⟩ | ⟨ht, rfl⟩ | ⟨ht, rfl⟩ | ⟨op, ⟨ht, -⟩, rfl⟩ |
        ⟨op, ⟨ht, -⟩, rfl⟩ | ⟨op, ht, rfl⟩ | ⟨ht, rfl⟩ | hend
      case inr.inr.inr.inr.inr.inr.inr => exact endItem_brackets hend
      all_goals simp [ht, State.brackets, opened, closed, Kind.isOpening, Kind.isClosing]
  | field x p br =>
      simp only [stepUsual_field, Option.ite_none_right_eq_some, Option.some.injEq] at h
      obtain ⟨ht, rfl⟩ := h
      simp [ht, State.brackets, opened, closed, Kind.isOpening, Kind.isClosing]

lemma Steps.brackets (h : Steps strict limit q w q') :
    q'.brackets.length + w.countP (·.kind.isClosing) =
      q.brackets.length + w.countP (·.kind.isOpening) := by
  induction h with
  | nil => rfl
  | @cons q q₁ q' t w _ ht _ ih =>
      have h1 := step_brackets ht
      simp only [List.countP_cons]
      rw [opened, closed] at h1
      omega

/-- **The machine keeps the brackets that are open.** -/
lemma Steps.openBrackets_eq (h : Steps strict limit .start w q) :
    openBrackets w = q.brackets.length := by
  have h1 := h.brackets
  have h0 : State.start.brackets.length = 0 := rfl
  rw [h0] at h1
  rw [openBrackets]
  omega

/-! ### Left operands -/

lemma Pieces.ends {separator : Kind} {P : List Token → Outline → Prop} {items : List Outline}
    (h : Pieces separator P items w) : w = [] ∨ ∃ u t, w = u ++ [t] ∧ t.kind = separator := by
  obtain ⟨ws, hws, -⟩ := h
  induction hws with
  | nil => exact Or.inl rfl
  | @cons w t ht ws u _ ih =>
      rcases ih with rfl | ⟨u, t', rfl, ht'⟩
      · exact Or.inr ⟨w, t, rfl, ht⟩
      · exact Or.inr ⟨w ++ t :: u, t', by simp, ht'⟩

/-- An item begins at a boundary. -/
lemma Opens.boundary (h : Opens br u) : Boundary u := by
  have hlast : ∀ {kind : Kind} {P : List Token → Outline → Prop} {items u w} {o : Token},
      o.kind.isOpening = true → kind.divides = true → Pieces kind P items w →
      Boundary (u ++ o :: w) := by
    intro kind P items u w o ho hk hw
    rcases hw.ends with rfl | ⟨v, t, rfl, ht⟩
    · exact Or.inr ⟨u, o, rfl, Or.inl ho⟩
    · exact Or.inr ⟨u ++ o :: v, t, by simp, Or.inr (by rwa [ht])⟩
  cases h with
  | none => exact Or.inl rfl
  | @group br p u v o _ _ ho =>
      exact Or.inr ⟨u ++ v, o, by simp, Or.inl (by rw [ho]; rfl)⟩
  | @args br p x items u v s w o _ _ _ ho hw =>
      have h := hlast (u := u ++ (v ++ s)) (by rw [ho]; rfl) rfl hw
      simpa using h
  | @subscripts br p x items u v s w o _ _ _ ho hw =>
      have h := hlast (u := u ++ (v ++ s)) (by rw [ho]; rfl) rfl hw
      simpa using h
  | @array br p rows items u v r w o _ _ ho hr hw =>
      have ho' : o.kind.isOpening = true := by rw [ho]; rfl
      rcases hw.ends with rfl | ⟨z, t, rfl, ht⟩
      · have h := hlast (u := u ++ v) ho' rfl hr
        simpa using h
      · exact Or.inr ⟨u ++ (v ++ o :: (r ++ z)), t, by simp, Or.inr (by rw [ht]; rfl)⟩

lemma Boundary.targets {targets : List Outline} (hu : Boundary u) (h : TargetsOf targets v) :
    Boundary (u ++ v) := by
  cases h with
  | nil => rwa [List.append_nil]
  | @push targets a b x t _ _ ht =>
      exact Or.inr ⟨u ++ (a ++ b), t, by simp, Or.inr (by rw [ht]; rfl)⟩

/-- **With an operand in hand the machine has read a left operand.** -/
lemma Explains.leftOperand (h : Explains w (.hold x p br)) :
    ∃ v e, LeftOperand w v e ∧ Expr.outline e = p.compared x := by
  obtain ⟨u, v, s, rfl, hu, hv, hs⟩ := h
  obtain ⟨a, c, ha, ⟨e, he, ho⟩, heq⟩ := hv.compared hs
  refine ⟨c, e, ?_, ho⟩
  rw [heq, ← List.append_assoc]
  exact leftOperand_of_boundary (Boundary.targets hu.boundary ha) he

/-- A word has one outline. -/
lemma outline_unique {e e' : Expr} (h : Derives .assignment w e) (h' : Derives .assignment w e') :
    Expr.outline e = Expr.outline e' := by
  obtain ⟨q, hs, hq⟩ := exists_derives_iff.mp ⟨e, h, rfl⟩
  obtain ⟨q', hs', hq'⟩ := exists_derives_iff.mp ⟨e', h', rfl⟩
  obtain rfl := hs.unique hs'
  exact Option.some.inj (hq.symm.trans hq')

/-- The left operand is a target if what the machine has read is. -/
lemma isTarget_leftOperand_iff {e : Expr} (h : Explains w (.hold x p br))
    (hv : LeftOperand w v e) : IsTarget e ↔ (p.compared x).IsTarget := by
  obtain ⟨v', e', hv', ho⟩ := h.leftOperand
  obtain rfl := hv.unique hv'
  rw [← ho, ← isTarget_outline_iff, outline_unique (.value hv.derives) (.value hv'.derives)]

/-! ### Problems -/

variable {i k : ℕ} {items : List Token}

/-- The machine takes the first tokens one after another. -/
lemma Steps.take {strict : Prop} (h : Steps strict limit .start (items.take k) q)
    (hi : i < k) (hk : k ≤ items.length) :
    ∃ q₁ q₂ t, items[i]? = some t ∧ Steps strict limit .start (items.take i) q₁ ∧
      Admits strict limit q₁ t ∧ stepUsual q₁ t = some q₂ ∧
      Steps strict limit .start (items.take (i + 1)) q₂ := by
  have hlt : i < items.length := by omega
  have hsplit : items.take k = items.take i ++ items[i] :: (items.take k).drop (i + 1) := by
    conv => lhs; rw [← List.take_append_drop i (items.take k)]
    rw [List.take_take, min_eq_left hi.le, List.drop_eq_getElem_cons (by simp; omega),
      List.getElem_take]
  rw [hsplit] at h
  obtain ⟨q₁, hs, h⟩ := steps_append_iff.mp h
  obtain ⟨ha, q₂, hq, -⟩ := steps_cons_iff.mp h
  refine ⟨q₁, q₂, items[i], List.getElem?_eq_getElem hlt, hs, ha, hq, ?_⟩
  rw [List.take_succ_eq_append_getElem hlt]
  exact hs.append (steps_one ha hq)

lemma Steps.viable {strict : Prop} {w : List Token} (h : Steps strict limit .start w q) :
    Viable w := viable_iff.mpr ⟨q, h.weaken⟩

/-- **Tokens that the machine takes under the conditions of a parse have no
problem.** -/
theorem Steps.no_problem (h : Steps True limit .start (items.take k) q) (hk : k ≤ items.length)
    (hi : i < k) : ¬ Problem limit items i := by
  obtain ⟨q₁, q₂, t, ht, hs, ha, hq, hs'⟩ := h.take hi hk
  rintro (⟨-, h⟩ | ⟨v, t', e, ht', hk', -, hv, he⟩ | ⟨t', ht', ho, -, hd⟩)
  · rcases h with ⟨-, h⟩ | ⟨h, -⟩
    · exact h hs'.viable
    · omega
  · obtain rfl := Option.some.inj (ht.symm.trans ht')
    have hexp : Explains (items.take i) q₁ := explains_start.steps hs
    have hhold : ∃ x p br, q₁ = .hold x p br := by
      cases q₁ with
      | hold x p br => exact ⟨x, p, br, rfl⟩
      | want p br => rcases br with _ | ⟨_ | _ | _ | _, br⟩ <;>
          simp [stepWant, hk', endEmpty] at hq
      | field x p br => simp [hk'] at hq
    obtain ⟨x, p, br, rfl⟩ := hhold
    exact he ((isTarget_leftOperand_iff hexp hv).mpr (ha.target trivial hk' x p br rfl))
  · obtain rfl := Option.some.inj (ht.symm.trans ht')
    have h1 := ha.depth trivial ho
    have h2 := step_brackets hq
    rw [opened, closed, if_pos ho, opening_not_closing ho] at h2
    rw [hs'.openBrackets_eq] at hd
    simp at h2
    omega

end Reference

end ArrayExpr
