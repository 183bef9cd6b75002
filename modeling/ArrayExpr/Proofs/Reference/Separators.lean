/-
Trailing separators make no difference to the reference machine.

* `Steps.alike`: the machine looks at the kinds and the texts of tokens;
* `Kind.isSpare`: a separator that ends nothing in front of a token;
* `Steps.leave_out`: a spare separator may be left out;
* `step_operand`: what a token says of an operand in hand behind it;
* `Steps.put_comma`, `Steps.put_comma_call`, `Steps.put_semicolon`: one may be put behind
  the last item of a list;
* `exists_within_iff`: the sentences of the machine under the conditions of a parse.

In each case the machine comes to the same state.
-/
import ArrayExpr.Proofs.Grammar.Lists
import ArrayExpr.Proofs.Layout.Basic
import ArrayExpr.Proofs.Reference.Closers

namespace ArrayExpr

/-- A separator that ends nothing in front of the token `next`: a comma where a list of
items ends, or a semicolon where a list of rows does. -/
def Kind.isSpare (kind next : Kind) : Bool :=
  kind = .comma && next.endsItems || kind = .semicolon && next = .closeBracket

namespace Reference

open Grammar

variable {strict : Prop} {limit n : ℕ} {kind next : Kind} {t c o : Token} {u v w x z : List Token}
  {ws : List (List Token)} {item : Outline} {p : Pending} {br : List Bracket} {q q' q₁ q₂ : State}

/-! ### Kinds and texts -/

lemma step_alike {t' : Token} (h : t.Alike t') (q : State) : stepUsual q t' = stepUsual q t := by
  simp only [stepUsual, Token.usual, h.kind, h.text]
  cases q <;> rfl

lemma Admits.alike {t' : Token} (ha : Admits strict limit q t) (h : t.Alike t') :
    Admits strict limit q t' where
  depth := h.kind ▸ ha.depth
  target := h.kind ▸ ha.target
  short := by
    have hshort := ha.short
    rwa [Token.IsLongInteger, h.kind, h.text] at hshort

/-- **The machine looks at the kinds and the texts of tokens.** -/
lemma Steps.alike (h : Steps strict limit q v q') (hw : List.Forall₂ Token.Alike v w) :
    Steps strict limit q w q' := by
  induction h generalizing w with
  | nil q =>
      cases hw
      exact .nil q
  | cons ha h _ ih =>
      cases hw with
      | cons hab hw => exact .cons (ha.alike hab) (by rw [step_alike hab, h]) (ih hw)

/-! ### Separators left out -/

lemma endsItem_of_isSpare (h : kind.isSpare next = true) : EndsItem kind ∧ EndsItem next := by
  cases kind <;> cases next <;> simp_all [Kind.isSpare, Kind.endsItems, EndsItem]

/-- Behind an item a spare separator changes what is open, not how it ends. -/
lemma endItem_isSpare (hs : kind.isSpare next = true) (h : endItem kind item br = some q) :
    ∃ br', q = .want .nothing br' ∧ endItem next item br = endEmpty next br' := by
  simp only [Kind.isSpare, Bool.or_eq_true, Bool.and_eq_true, decide_eq_true_eq] at hs
  rcases br with _ | ⟨_ | _ | _ | _, rest⟩ <;> rcases hs with ⟨rfl, hn⟩ | ⟨rfl, rfl⟩ <;>
    simp [endItem] at h <;> subst h <;> refine ⟨_, rfl, ?_⟩
  case cons.array.inr => simp [endItem, endEmpty, arrayOutline, closeRow]
  all_goals cases next <;> simp_all [endItem, endEmpty, Kind.endsItems]

/-- Where an item is missing, too. -/
lemma endEmpty_isSpare (hs : kind.isSpare next = true) (h : endEmpty kind br = some q) :
    ∃ br', q = .want .nothing br' ∧ endEmpty next br = endEmpty next br' := by
  simp only [Kind.isSpare, Bool.or_eq_true, Bool.and_eq_true, decide_eq_true_eq] at hs
  rcases br with _ | ⟨_ | _ | _ | _, rest⟩ <;> rcases hs with ⟨rfl, hn⟩ | ⟨rfl, rfl⟩ <;>
    simp [endEmpty] at h
  obtain ⟨-, rfl⟩ := h
  exact ⟨_, rfl, by simp [endEmpty, arrayOutline, closeRow]⟩

/-- **In front of the token behind it a spare separator does nothing.** -/
lemma step_isSpare (hs : t.kind.isSpare c.kind = true) (h : stepUsual q t = some q₁) :
    stepUsual q₁ c = stepUsual q c := by
  obtain ⟨ht, hc⟩ := endsItem_of_isSpare hs
  cases q with
  | want p br =>
      have hwant : ∀ s : Token, EndsItem s.kind →
          stepUsual (.want p br) s = if p.isNothing then endEmpty s.kind br else none := by
        intro s hs
        rcases hs with hk | hk | hk | hk <;> simp [stepWant, hk]
      rw [hwant t ht] at h
      split_ifs at h with hp
      obtain ⟨br', rfl, heq⟩ := endEmpty_isSpare hs h
      rw [hwant c hc, if_pos hp, heq, hc.step_want]
  | hold x p br =>
      rw [ht.step_hold] at h
      obtain ⟨br', rfl, heq⟩ := endItem_isSpare hs h
      rw [hc.step_hold, heq, hc.step_want]
  | field x p br =>
      rw [stepUsual_field] at h
      split_ifs at h with hname
      rw [hname] at ht
      simp [EndsItem] at ht

/-- **A spare separator may be left out.** -/
lemma Steps.leave_out (hs : t.kind.isSpare c.kind = true)
    (h : Steps strict limit q (v ++ t :: c :: z) q') : Steps strict limit q (v ++ c :: z) q' := by
  obtain ⟨q₀, hv, h⟩ := steps_append_iff.mp h
  obtain ⟨-, q₁, ht, h⟩ := steps_cons_iff.mp h
  obtain ⟨-, q₂, hc, hz⟩ := steps_cons_iff.mp h
  exact hv.append (.cons (endsItem_of_isSpare hs).2.admits (step_isSpare hs ht ▸ hc) hz)

/-! ### Separators put in -/

/-- **A spare separator may be put in** where the machine takes it. -/
lemma Steps.put_in (hs : t.kind.isSpare c.kind = true)
    (h : Steps strict limit q (v ++ c :: z) q')
    (ht : ∀ q₁ q₂, Steps strict limit q v q₁ → stepUsual q₁ c = some q₂ → stepUsual q₁ t ≠ none) :
    Steps strict limit q (v ++ t :: c :: z) q' := by
  obtain ⟨q₁, hv, h⟩ := steps_append_iff.mp h
  obtain ⟨ha, q₂, hc, hz⟩ := steps_cons_iff.mp h
  obtain ⟨q₃, hq₃⟩ := Option.ne_none_iff_exists'.mp (ht q₁ q₂ hv hc)
  have hback : stepUsual q₃ c = some q₂ := by rw [step_isSpare hs hq₃, hc]
  exact hv.append (.cons (endsItem_of_isSpare hs).1.admits hq₃
    (.cons (endsItem_of_isSpare hs).2.admits hback hz))

/-- The machine takes a token where it goes on behind it. -/
lemma Steps.step_ne_none (hv : Steps strict limit q v q₁)
    (h : Steps False n q (v ++ t :: z) q') : stepUsual q₁ t ≠ none := by
  obtain ⟨q₂, hv', h⟩ := steps_append_iff.mp h
  obtain ⟨-, q₃, ht, -⟩ := steps_cons_iff.mp h
  rw [hv.unique hv', ht]
  exact Option.some_ne_none _

/-- A bracket that ends an item leaves an operand in hand, a separator wants one. -/
def Ended (kind : Kind) (q : State) : Prop :=
  (kind = .closeParen ∨ kind = .closeBracket) ∧ (∃ x p br, q = .hold x p br) ∨
    (kind = .comma ∨ kind = .semicolon) ∧ ∃ p br, q = .want p br

lemma endItem_ended (h : endItem kind item br = some q) : Ended kind q := by
  rcases br with _ | ⟨_ | _ | _ | _, rest⟩ <;> simp only [endItem] at h
  · cases h
  all_goals
    split_ifs at h <;> cases h <;> simp_all [Ended]

lemma endEmpty_ended (h : endEmpty kind br = some q) : Ended kind q := by
  rcases br with _ | ⟨_ | _ | _ | _, rest⟩ <;> simp only [endEmpty] at h
  case nil | cons.group => cases h
  all_goals
    split_ifs at h <;> cases h <;> simp_all [Ended]

/-- **What ends an operand leaves one in hand**; behind what stands in front of an operand
one is wanted. -/
lemma step_operand (h : stepUsual q t = some q') :
    (t.kind.endsOperand = true → ∃ x p br, q' = .hold x p br) ∧
      (t.kind.wantsOperand = true → ∃ p br, q' = .want p br) := by
  have hended : Ended t.kind q' → (t.kind.endsOperand = true → ∃ x p br, q' = .hold x p br) ∧
      (t.kind.wantsOperand = true → ∃ p br, q' = .want p br) := by
    rintro (⟨hk | hk, hq⟩ | ⟨hk | hk, hq⟩) <;> simp [hk, hq, Kind.endsOperand, Kind.wantsOperand]
  cases q with
  | want p br =>
      rw [stepUsual_want] at h
      rcases stepWant_cases h with ⟨⟨k, hk⟩ | hk, rfl⟩ | ⟨hk, rfl⟩ | ⟨hk, rfl⟩ | ⟨hk, rfl⟩ |
        ⟨-, hend⟩
      case inr.inr.inr.inr => exact hended (endEmpty_ended hend)
      all_goals simp [hk, Kind.endsOperand, Kind.wantsOperand]
  | hold x p br =>
      rw [stepUsual_hold] at h
      rcases stepHold_cases h with ⟨hk, rfl⟩ | ⟨hk, rfl⟩ | ⟨hk, rfl⟩ | ⟨op, ⟨hk, -⟩, rfl⟩ |
        ⟨op, ⟨hk, -⟩, rfl⟩ | ⟨op, hk, rfl⟩ | ⟨hk, rfl⟩ | hend
      case inr.inr.inr.inr.inr.inr.inr => exact hended (endItem_ended hend)
      all_goals simp [hk, Kind.endsOperand, Kind.wantsOperand]
  | field x p br =>
      simp only [stepUsual_field, Option.ite_none_right_eq_some, Option.some.injEq] at h
      obtain ⟨hk, rfl⟩ := h
      simp [hk, Kind.endsOperand, Kind.wantsOperand]

/-- The last step of a run. -/
lemma Steps.last (h : Steps strict limit q (u ++ [t]) q') : ∃ q₁, stepUsual q₁ t = some q' := by
  obtain ⟨q₁, -, h⟩ := steps_append_iff.mp h
  obtain ⟨-, q₂, hq, h⟩ := steps_cons_iff.mp h
  exact ⟨q₁, steps_nil_iff.mp h ▸ hq⟩

lemma Steps.hold_of_leaves (h : Steps strict limit q w q') (hw : Leaves w) :
    ∃ x p br, q' = .hold x p br := by
  obtain ⟨u, t, rfl, ht⟩ := hw
  obtain ⟨q₁, hq⟩ := h.last
  exact (step_operand hq).1 ht

lemma Steps.want_of_wants (h : Steps strict limit .start w q) (hw : Wants w) :
    ∃ p br, q = .want p br := by
  rcases hw with rfl | ⟨u, t, rfl, ht⟩
  · exact ⟨_, _, steps_nil_iff.mp h⟩
  · obtain ⟨q₁, hq⟩ := h.last
    exact (step_operand hq).2 ht

/-- **A comma may be put behind the last item of a row or of subscripts.** -/
lemma Steps.put_comma (hv : Leaves v) (ht : t.kind = .comma)
    (hc : c.kind = .closeBracket ∨ c.kind = .semicolon)
    (h : Steps strict limit q (v ++ c :: z) q') : Steps strict limit q (v ++ t :: c :: z) q' := by
  have hs : t.kind.isSpare c.kind = true := by rcases hc with hc | hc <;> rw [ht, hc] <;> rfl
  refine h.put_in hs fun q₁ q₂ hq₁ hq₂ => ?_
  obtain ⟨x, p, br, rfl⟩ := hq₁.hold_of_leaves hv
  rw [(endsItem_of_isSpare hs).1.step_hold, ht]
  rw [(endsItem_of_isSpare hs).2.step_hold] at hq₂
  rcases br with _ | ⟨_ | _ | _ | _, br⟩ <;> rcases hc with hc | hc <;>
    simp_all [endItem]

/-- **A comma may be put behind the last argument of a call.** -/
lemma Steps.put_comma_call {args : List Phrase} (hx : Leaves x) (ho : o.kind = .openParen)
    (ht : t.kind = .comma) (hc : c.kind = .closeParen)
    (hu : Listed .comma (args.map Phrase.tokens) (u ++ [t]))
    (ha : ∀ a ∈ args, Derives .assignment a.tokens a.tree)
    (h : Steps strict limit .start ((x ++ o :: u) ++ c :: z) q') :
    Steps strict limit .start ((x ++ o :: u) ++ t :: c :: z) q' := by
  refine h.put_in (by rw [ht, hc]; rfl) fun q₁ q₂ hq₁ hq₂ => ?_
  obtain ⟨q₀, hq₀, hq₁⟩ := steps_append_iff.mp hq₁
  obtain ⟨y, p, br, rfl⟩ := hq₀.hold_of_leaves hx
  have hcall : Steps False limit (.hold y p br) (o :: (u ++ [t]) ++ [c]) _ :=
    steps_call (n := 0) ho hc False.elim (.inr hu)
      (runsWhole_phrases fun a h => runsWhole_of_derives (ha a h))
  rw [List.cons_append, List.append_assoc, ← List.cons_append] at hcall
  exact hq₁.step_ne_none hcall

/-- **A semicolon may be put behind the last row of an array.** -/
lemma Steps.put_semicolon {rows : List Row} (hx : Wants x) (ho : o.kind = .openBracket)
    (ht : t.kind = .semicolon) (hc : c.kind = .closeBracket)
    (hu : Listed .semicolon (rows.map Row.tokens) (u ++ [t]))
    (hr : ∀ r ∈ rows, Listed .comma (r.items.map Phrase.tokens) r.tokens)
    (ha : ∀ r ∈ rows, ∀ a ∈ r.items, Derives .assignment a.tokens a.tree)
    (h : Steps strict limit .start ((x ++ o :: u) ++ c :: z) q') :
    Steps strict limit .start ((x ++ o :: u) ++ t :: c :: z) q' := by
  refine h.put_in (by rw [ht, hc]; rfl) fun q₁ q₂ hq₁ hq₂ => ?_
  obtain ⟨q₀, hq₀, hq₁⟩ := steps_append_iff.mp hq₁
  obtain ⟨p, br, rfl⟩ := hq₀.want_of_wants hx
  have harray : Steps False limit (.want p br) (o :: (u ++ [t]) ++ [c]) _ :=
    steps_array (n := 0) ho hc False.elim (.inr hu)
      (runsRow_rows hr fun r hmem a h => runsWhole_of_derives (ha r hmem a h))
  rw [List.cons_append, List.append_assoc, ← List.cons_append] at harray
  exact hq₁.step_ne_none harray

/-! ### The conditions of a parse -/

/-- Under the conditions of a parse the machine opens no more brackets than the limit. -/
lemma Steps.brackets_le (h : Steps True limit q w q') (hq : q.brackets.length ≤ limit) :
    q'.brackets.length ≤ limit := by
  induction h with
  | nil => exact hq
  | @cons q q₁ q' t w ha hstep _ ih =>
      refine ih ?_
      have hbrackets := step_brackets hstep
      rw [opened] at hbrackets
      split_ifs at hbrackets with hopen
      · have := ha.depth trivial hopen
        omega
      · omega

/-- Then no more brackets are open at once than the limit. -/
lemma Steps.atMostOpen (h : Steps True limit .start w q) : AtMostOpen limit w := by
  rintro u ⟨y, rfl⟩
  obtain ⟨q₁, hu, -⟩ := steps_append_iff.mp h
  rw [hu.openBrackets_eq]
  exact hu.brackets_le (Nat.zero_le _)

/-- **The sentences of the machine under the conditions of a parse** are the derivations that
fit, if every `assign` of the outline has a target. -/
theorem exists_within_iff {outline : Outline} (htargets : outline.TargetsValid) :
    (∃ e, Within True limit .assignment w e ∧ Expr.outline e = outline) ↔
      ∃ q, Steps True limit .start w q ∧ q.sentence? = some outline := by
  constructor
  · rintro ⟨e, ⟨he, hfits⟩, rfl⟩
    obtain ⟨x, p, hs, hx⟩ := (runs_of_derives he hfits).whole [] fun _ => (Nat.zero_add _).le
    exact ⟨_, hs, congrArg some hx⟩
  · rintro ⟨q, hs, hq⟩
    obtain ⟨e, he, rfl⟩ := (explains_start.steps hs).sentence hq
    exact ⟨e, ⟨he, fun _ => (targetsValid_outline_iff e).mp htargets, hs.atMostOpen,
      fun _ => hs.short trivial⟩, rfl⟩

end Reference

end ArrayExpr
