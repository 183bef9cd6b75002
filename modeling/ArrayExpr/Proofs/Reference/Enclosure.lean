/-
The bracket that a place stands in.

* `Grammar.StandsOpen`: a bracket of a word that none of its tokens closes;
* `Grammar.Innermost`: the innermost of those that stand behind tokens of one kind, by the
  name of the operand that it begins;
* `Grammar.Encloses`: the same bracket, found by going in from the outermost one;
  `Encloses.innermost` is the connection;
* `Grammar.ExpectsOperand`: an operand may come next; `expectsOperand_iff`: the last token
  tells so.
-/
import ArrayExpr.Proofs.Reference.Separators

namespace ArrayExpr

/-- What the operand is called that an opening bracket begins. -/
def Kind.operandName : Kind → String
  | .openBracket => "array literal"
  | _ => "parenthesized expression"

lemma Kind.operandName_ne (kind : Kind) : kind.operandName ≠ "" := by
  unfold Kind.operandName
  split <;> simp

namespace Grammar

variable {h u v w : List Token} {o t : Token} {name : Option String} {P Q : List Token → Prop}

/-! ### Brackets that stand open -/

/-- In the tokens `w` no bracket is closed that was opened before them. -/
def Keeps (w : List Token) : Prop :=
  ∀ u, u <+: w → u.countP (·.kind.isClosing) ≤ u.countP (·.kind.isOpening)

/-- Behind the tokens `u` the word `w` has the opening bracket `o`, which none of its
tokens closes. -/
structure StandsOpen (w u : List Token) (o : Token) : Prop where
  opening : o.kind.isOpening = true
  behind : ∃ v, w = u ++ o :: v ∧ Keeps v

/-- The innermost bracket that stands open in a word behind tokens of which `P` holds begins
an operand of the given name; without a name there is no such bracket. -/
def Innermost (P : List Token → Prop) (w : List Token) : Option String → Prop
  | none => ∀ u o, StandsOpen w u o → ¬ P u
  | some name => ∃ u o, StandsOpen w u o ∧ P u ∧ name = o.kind.operandName ∧
      ∀ u' o', StandsOpen w u' o' → P u' → u' <+: u

lemma Keeps.of_prefix (hw : Keeps w) (hu : u <+: w) : Keeps u := fun x hx => hw x (hx.trans hu)

lemma Keeps.append (hv : Keeps v) (hw : Keeps w) : Keeps (v ++ w) := by
  intro u hu
  rcases prefix_append_cases hu with hu | ⟨x, rfl, hx⟩
  · exact hv u hu
  · have hall := hv v List.prefix_rfl
    have hrest := hw x hx
    simp only [List.countP_append]
    omega

lemma keeps_opening (ho : o.kind.isOpening = true) : Keeps [o] := by
  intro u hu
  rcases List.prefix_cons_iff.mp hu with rfl | ⟨x, rfl, hx⟩
  · rfl
  · rw [List.prefix_nil.mp hx]
    simp [ho, opening_not_closing ho]

lemma StandsOpen.isPrefix (hu : StandsOpen w u o) : u <+: w := by
  obtain ⟨v, rfl, -⟩ := hu.behind
  exact List.prefix_append u _

/-- In a balanced word no bracket stands open. -/
lemma Balanced.not_standsOpen (hw : Balanced w) : ¬ StandsOpen w u o := by
  rintro ⟨ho, v, rfl, hv⟩
  have hbefore := hw.closed_le u (List.prefix_append u _)
  have hbehind := hv v List.prefix_rfl
  have htotal := hw.total
  simp only [List.countP_append, List.countP_cons, ho, opening_not_closing ho, if_true,
    Bool.false_eq_true, if_false] at htotal
  omega

/-- **Behind a balanced word** stand open the next bracket and those inside it. -/
lemma standsOpen_iff (hv : Balanced v) (ho : o.kind.isOpening = true) (hw : Keeps w) :
    StandsOpen (v ++ o :: w) u t ↔ u = v ∧ t = o ∨ ∃ x, u = v ++ o :: x ∧ StandsOpen w x t := by
  constructor
  · rintro ⟨ht, y, heq, hy⟩
    rcases List.append_eq_append_iff.mp heq with ⟨_ | ⟨a, x⟩, rfl, hx⟩ | ⟨_ | ⟨a, x⟩, rfl, hx⟩
    · obtain ⟨rfl, -⟩ := List.cons.inj hx
      exact .inl ⟨List.append_nil v, rfl⟩
    · obtain ⟨rfl, rfl⟩ := List.cons.inj hx
      exact .inr ⟨x, rfl, ht, y, rfl, hy⟩
    · obtain ⟨rfl, -⟩ := List.cons.inj hx
      exact .inl ⟨(List.append_nil u).symm, rfl⟩
    · obtain ⟨rfl, rfl⟩ := List.cons.inj hx
      exact absurd ⟨ht, x, rfl, hy.of_prefix (List.prefix_append x _)⟩ hv.not_standsOpen
  · rintro (⟨rfl, rfl⟩ | ⟨x, rfl, ht, y, rfl, hy⟩)
    · exact ⟨ho, w, rfl, hw⟩
    · exact ⟨ht, y, by simp, hy⟩

/-! ### The innermost bracket -/

/-- What holds of the same beginnings of a word finds the same bracket. -/
lemma Innermost.congr (hw : Innermost P w name) (hPQ : ∀ u, u <+: w → (P u ↔ Q u)) :
    Innermost Q w name := by
  cases name with
  | none => exact fun u o hu => mt (hPQ u hu.isPrefix).mpr (hw u o hu)
  | some name =>
      obtain ⟨u, o, hu, hP, hname, hlast⟩ := hw
      exact ⟨u, o, hu, (hPQ u hu.isPrefix).mp hP, hname, fun u' o' hu' hQ =>
        hlast u' o' hu' ((hPQ u' hu'.isPrefix).mpr hQ)⟩

/-- A bracket that is found inside another is found from outside. -/
lemma Innermost.of_inside {name : String} (hv : Balanced v) (ho : o.kind.isOpening = true)
    (hw : Keeps w) (hin : Innermost (fun x => P (v ++ o :: x)) w (some name)) :
    Innermost P (v ++ o :: w) (some name) := by
  obtain ⟨u, t, hu, hP, hname, hlast⟩ := hin
  refine ⟨v ++ o :: u, t, (standsOpen_iff hv ho hw).mpr (.inr ⟨u, rfl, hu⟩), hP, hname,
    fun u' o' hu' hP' => ?_⟩
  rcases (standsOpen_iff hv ho hw).mp hu' with ⟨rfl, -⟩ | ⟨x, rfl, hx⟩
  · exact List.prefix_append u' _
  · exact (List.prefix_append_right_inj v).mpr ((List.prefix_cons_inj o).mpr (hlast x o' hx hP'))

/-- A bracket with no such bracket inside is found itself. -/
lemma innermost_here (hv : Balanced v) (ho : o.kind.isOpening = true) (hw : Keeps w)
    (hin : Innermost (fun x => P (v ++ o :: x)) w none) (hP : P v) :
    Innermost P (v ++ o :: w) (some o.kind.operandName) := by
  refine ⟨v, o, (standsOpen_iff hv ho hw).mpr (.inl ⟨rfl, rfl⟩), hP, rfl, fun u' o' hu' hP' => ?_⟩
  rcases (standsOpen_iff hv ho hw).mp hu' with ⟨rfl, -⟩ | ⟨x, rfl, hx⟩
  · exact List.prefix_rfl
  · exact absurd hP' (hin x o' hx)

/-- A bracket behind other tokens is passed over. -/
lemma innermost_past (hv : Balanced v) (ho : o.kind.isOpening = true) (hw : Keeps w)
    (hin : Innermost (fun x => P (v ++ o :: x)) w none) (hP : ¬ P v) :
    Innermost P (v ++ o :: w) none := by
  intro u' o' hu'
  rcases (standsOpen_iff hv ho hw).mp hu' with ⟨rfl, -⟩ | ⟨x, rfl, hx⟩
  · exact hP
  · exact hin x o' hx

/-! ### Going in from outside -/

/-- Behind the tokens `h` the word `w` goes into brackets, the innermost of which that
begins an operand has the name. -/
inductive Encloses : List Token → List Token → Option String → Prop
  | closed {h w : List Token} (hw : Balanced w) : Encloses h w none
  | operand {h v w : List Token} {o : Token} {name : Option String} (hv : Balanced v)
      (ho : o.kind.isOpening = true) (hwant : Wants (h ++ v))
      (hw : Encloses (h ++ v ++ [o]) w name) :
      Encloses h (v ++ o :: w) (name.or (some o.kind.operandName))
  | suffix {h v w : List Token} {o : Token} {name : Option String} (hv : Balanced v)
      (ho : o.kind.isOpening = true) (hwant : ¬ Wants (h ++ v))
      (hw : Encloses (h ++ v ++ [o]) w name) : Encloses h (v ++ o :: w) name

lemma Encloses.name_ne (hw : Encloses h w name) : name ≠ some "" := by
  induction hw with
  | closed => simp
  | @operand h v w o name _ _ _ _ ih => cases name <;> simp_all [Kind.operandName_ne]
  | suffix _ _ _ _ ih => exact ih

/-- Balanced tokens may stand before. -/
lemma Encloses.after (hv : Balanced v) (hw : Encloses (h ++ v) w name) :
    Encloses h (v ++ w) name := by
  cases hw with
  | closed hw => exact .closed (hv.append hw)
  | operand hu ho hwant hw =>
      rw [List.append_assoc h v] at hwant hw
      simpa using Encloses.operand (hv.append hu) ho hwant hw
  | suffix hu ho hwant hw =>
      rw [List.append_assoc h v] at hwant hw
      simpa using Encloses.suffix (hv.append hu) ho hwant hw

/-- Balanced tokens may follow. -/
lemma Encloses.append (hw : Encloses h w name) (hv : Balanced v) : Encloses h (w ++ v) name := by
  induction hw with
  | closed hw => exact .closed (hw.append hv)
  | operand hu ho hwant _ ih => simpa using Encloses.operand hu ho hwant ih
  | suffix hu ho hwant _ ih => simpa using Encloses.suffix hu ho hwant ih

lemma Encloses.keeps (hw : Encloses h w name) : Keeps w := by
  induction hw with
  | closed hw => exact hw.closed_le
  | operand hv ho _ _ ih | suffix hv ho _ _ ih =>
      exact Keeps.append hv.closed_le ((keeps_opening ho).append ih)

/-- **The name is that of the innermost bracket** that stands open behind tokens where an
operand is wanted. -/
theorem Encloses.innermost (hw : Encloses h w name) :
    Innermost (fun u => Wants (h ++ u)) w name := by
  induction hw with
  | closed hw => exact fun u o hu => absurd hu hw.not_standsOpen
  | @operand h v w o name hv ho hwant hw ih =>
      simp only [List.append_assoc, List.singleton_append] at ih
      cases name with
      | none => exact innermost_here hv ho hw.keeps ih hwant
      | some name => exact ih.of_inside hv ho hw.keeps
  | @suffix h v w o name hv ho hwant hw ih =>
      simp only [List.append_assoc, List.singleton_append] at ih
      cases name with
      | none => exact innermost_past hv ho hw.keeps ih hwant
      | some name => exact ih.of_inside hv ho hw.keeps

/-! ### Where an operand is expected -/

/-- An operand may come next: with a literal more the word is the beginning of a sentence. -/
def ExpectsOperand (w : List Token) : Prop :=
  ∃ t kind, t.kind = .literal kind ∧ Viable (w ++ [t])

end Grammar

namespace Reference

open Grammar

variable {u w : List Token} {t : Token} {kind : Kind} {item : Outline} {k : LiteralKind}
  {p : Pending} {br : List Bracket} {q : State}

/-- An operand is wanted only behind what stands in front of one. -/
lemma wantsOperand_of_step (h : stepUsual q t = some (.want p br)) :
    t.kind.wantsOperand = true := by
  have hended : Ended t.kind (.want p br) → t.kind.wantsOperand = true := by
    rintro (⟨-, x, p', br', hq⟩ | ⟨hk | hk, -⟩)
    · cases hq
    all_goals
      rw [hk]
      rfl
  cases q with
  | want p' br' =>
      rw [stepUsual_want] at h
      rcases stepWant_cases h with ⟨-, hq⟩ | ⟨hk, -⟩ | ⟨hk, -⟩ | ⟨hk, -⟩ | ⟨-, hend⟩
      case inl => cases hq
      case inr.inr.inr.inr => exact hended (endEmpty_ended hend)
      all_goals
        rw [hk]
        rfl
  | hold x p' br' =>
      rw [stepUsual_hold] at h
      rcases stepHold_cases h with ⟨hk, -⟩ | ⟨hk, -⟩ | ⟨hk, hq⟩ | ⟨op, ⟨hk, -⟩, -⟩ |
        ⟨op, ⟨hk, -⟩, -⟩ | ⟨op, hk, -⟩ | ⟨hk, -⟩ | hend
      case inr.inr.inl => cases hq
      case inr.inr.inr.inr.inr.inr.inr => exact hended (endItem_ended hend)
      all_goals
        rw [hk]
        rfl
  | field x p' br' =>
      simp only [stepUsual_field, Option.ite_none_right_eq_some, Option.some.injEq] at h
      cases h.2

/-- A literal is taken where an operand is wanted, and nowhere else. -/
lemma step_literal_iff (ht : t.kind = .literal k) :
    stepUsual q t ≠ none ↔ ∃ p br, q = .want p br := by
  cases q with
  | want p br => simp [stepWant, ht]
  | hold x p br =>
      rcases br with _ | ⟨_ | _ | _ | _, br⟩ <;> simp [stepHold, ht, endItem]
  | field x p br => simp [ht]

/-- **The last token tells whether an operand is expected.** -/
theorem expectsOperand_iff (hw : Viable w) : ExpectsOperand w ↔ Wants w := by
  obtain ⟨q, hq⟩ := viable_iff.mp hw
  constructor
  · rintro ⟨t, k, ht, h⟩
    obtain ⟨p, br, rfl⟩ := (step_literal_iff ht).mp (hq.viable_concat_iff.mp h)
    rcases List.eq_nil_or_concat' w with rfl | ⟨u, t', rfl⟩
    · exact .inl rfl
    · obtain ⟨q₁, hlast⟩ := hq.last
      exact wants_concat u (wantsOperand_of_step hlast)
  · intro h
    exact ⟨⟨.literal .number, none, .origin, 0⟩, .number, rfl,
      hq.viable_concat_iff.mpr ((step_literal_iff rfl).mpr (hq.want_of_wants h))⟩

end Reference

end ArrayExpr
