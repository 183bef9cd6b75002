/-
What rules read.

* `Rule.Reads`: a rule reads the words of a language with their values; it
  stops only where `halt` holds of the token ahead, and does not miss a word
  that stands where `ready` holds after it;
* `Reads.many`, `Reads.chain`: repetitions, and operands with operators between
  them;
* `gives_furtherItem_some`, `gives_items`, `refuses_items`, `overruns_items`: how a
  list ends, from how its items do;
* `Reads.list`: items with separators between them;
* `Reads.bracketed`: an opening bracket, what stands inside, and the bracket
  that closes it.
-/
import ArrayExpr.Parser.Expression
import ArrayExpr.Proofs.Rule.Outcome
import ArrayExpr.Proofs.Grammar.Unrolled

namespace ArrayExpr

/-- Whether an expression may begin with a token. -/
def Kind.startsOperand : Kind → Bool
  | literal _ | name | openParen | openBracket | arith .minus => true
  | _ => false

namespace Rule

variable {α β ι ω : Type} {s s' s₁ : TokenStream} {w : List Token}

/-- A rule reads the words of a language `G` with their values. -/
structure Reads (r : Rule α) (G : List Token → α → Prop) (halt ready : Kind → Prop) : Prop where
  sound : ∀ {s a s'}, s.Ordered → r.Gives s a s' →
    ∃ w, s.Passes w s' ∧ G w a ∧ halt s'.current.kind
  complete : ∀ {s w a s'}, s.Ordered → s.Passes w s' → G w a → ready s'.current.kind →
    r.Gives s a s'

lemma Reads.congr {r : Rule α} {G G' : List Token → α → Prop} {halt ready : Kind → Prop}
    (hr : r.Reads G halt ready) (hG : ∀ w a, G w a ↔ G' w a) : r.Reads G' halt ready where
  sound := fun hs h => by
    obtain ⟨w, hp, hw, hh⟩ := hr.sound hs h
    exact ⟨w, hp, (hG _ _).mp hw, hh⟩
  complete := fun hs hp hw hrd => hr.complete hs hp ((hG _ _).mpr hw) hrd

lemma Reads.visited {r : Rule α} {G : List Token → α → Prop} {halt ready : Kind → Prop}
    {name : String} (hr : r.Reads G halt ready) :
    (Rule.visit name >>= fun _ => r).Reads G halt ready where
  sound := fun hs h => hr.sound hs (gives_visited.mp h)
  complete := fun hs hp hw hrd => gives_visited.mpr (hr.complete hs hp hw hrd)

lemma Reads.value {r : Rule α} {f : α → Rule β} {k : α → β} {G : List Token → α → Prop}
    {halt ready : Kind → Prop} (hr : r.Reads G halt ready) (hf : ∀ a, f a = pure (k a)) :
    (r >>= f).Reads (fun w b => ∃ a, G w a ∧ b = k a) halt ready where
  sound := fun hs h => by
    obtain ⟨a, ha, rfl⟩ := (gives_value hf).mp h
    obtain ⟨w, hp, hw, hh⟩ := hr.sound hs ha
    exact ⟨w, hp, ⟨a, hw, rfl⟩, hh⟩
  complete := by
    rintro s w b s' hs hp ⟨a, hw, rfl⟩ hrd
    exact (gives_value hf).mpr ⟨a, hr.complete hs hp hw hrd, rfl⟩

/-! ### Tokens -/

/-- A token of a kind that is not the closing one can be passed. -/
lemma passes_advance {kind : Kind} (hs : s.Ordered) (h : s.current.kind = kind)
    (hk : kind ≠ .finish) : s.Passes [s.current] s.advance :=
  TokenStream.passes_one (hs.peek_current (by rw [h]; exact hk))

lemma current_of_passes {t : Token} (h : s.Passes (t :: w) s') : s.current = t :=
  TokenStream.current_of_peek h.1

/-! ### Repetitions -/

/-- A step that goes on reads the tokens of an item of `G`, which is never
empty and begins with a token that may follow another item. -/
structure ReadsItems (step : Rule (Option β)) (tokens : ι → List Token) (value : ι → β)
    (G : ι → Prop) (halt ready : Kind → Prop) : Prop where
  sound : ∀ {s b s'}, s.Ordered → step.Gives s (some b) s' →
    ∃ x, G x ∧ b = value x ∧ s.Passes (tokens x) s' ∧ halt s'.current.kind
  complete : ∀ {s x s'}, s.Ordered → G x → s.Passes (tokens x) s' → ready s'.current.kind →
    step.Gives s (some (value x)) s'
  begins : ∀ {x}, G x → ∃ t u, tokens x = t :: u ∧ ready t.kind

section Many

variable {step : Rule (Option β)} {tokens : ι → List Token} {value : ι → β} {G : ι → Prop}
  {halt ready : Kind → Prop} {bs : List β} {xs : List ι}

lemma ReadsItems.reading (h : ReadsItems step tokens value G halt ready) :
    ReadingRounds step := by
  intro s b s₁ hs hstep
  obtain ⟨x, hx, -, hp, -⟩ := h.sound hs hstep
  obtain ⟨t, u, htu, -⟩ := h.begins hx
  exact ⟨tokens x, by simp [htu], hp⟩

/-- Rounds read items one after another. -/
lemma ReadsItems.rounds_sound (h : ReadsItems step tokens value G halt ready) (hs : s.Ordered)
    (hr : Rounds step s bs s₁) :
    ∃ xs, (∀ x ∈ xs, G x) ∧ bs = xs.map value ∧ s.Passes (xs.flatMap tokens) s₁ ∧
      (xs = [] ∨ halt s₁.current.kind) := by
  induction hr with
  | refl s => exact ⟨[], by simp, rfl, rfl, Or.inl rfl⟩
  | @round s s₁ s₂ b bs hstep _ ih =>
      obtain ⟨x, hx, rfl, hp, hh⟩ := h.sound hs hstep
      obtain ⟨xs, hxs, rfl, hps, hend⟩ := ih (hs.passes hp)
      refine ⟨x :: xs, List.forall_mem_cons.mpr ⟨hx, hxs⟩, rfl, hp.append hps, Or.inr ?_⟩
      rcases hend with rfl | hend
      · rw [List.flatMap_nil, TokenStream.passes_nil_iff] at hps
        rwa [hps]
      · exact hend

/-- **A repetition reads what its rounds read**, up to a round that gives
nothing. -/
lemma ReadsItems.many_sound (h : ReadsItems step tokens value G halt ready) (hs : s.Ordered)
    (hm : (many step).Gives s bs s') :
    ∃ xs s₁, (∀ x ∈ xs, G x) ∧ bs = xs.map value ∧ s.Passes (xs.flatMap tokens) s₁ ∧
      (xs = [] ∨ halt s₁.current.kind) ∧ step.Gives s₁ none s' := by
  obtain ⟨s₁, hr, hnone⟩ := (gives_many h.reading hs).mp hm
  obtain ⟨xs, hxs, hbs, hp, hend⟩ := h.rounds_sound hs hr
  exact ⟨xs, s₁, hxs, hbs, hp, hend, hnone⟩

/-- A repetition fails after some items, in a round of its own. -/
lemma ReadsItems.many_refuses {g : Failure} (h : ReadsItems step tokens value G halt ready)
    (hs : s.Ordered) (hm : (many step).Refuses s g) :
    ∃ xs s₁, (∀ x ∈ xs, G x) ∧ s.Passes (xs.flatMap tokens) s₁ ∧
      (xs = [] ∨ halt s₁.current.kind) ∧ step.Refuses s₁ g := by
  obtain ⟨bs, s₁, hr, hg⟩ := refuses_many h.reading hs hm
  obtain ⟨xs, hxs, -, hp, hend⟩ := h.rounds_sound hs hr
  exact ⟨xs, s₁, hxs, hp, hend, hg⟩

/-- A repetition overruns after some items, in a round of its own. -/
lemma ReadsItems.many_overruns {m : ℕ} (h : ReadsItems step tokens value G halt ready)
    (hs : s.Ordered) (hm : (many step).Overruns s m) :
    ∃ (xs : List ι) (s₁ : TokenStream), (∀ x ∈ xs, G x) ∧ s.Passes (xs.flatMap tokens) s₁ ∧
      step.Overruns s₁ m := by
  obtain ⟨bs, s₁, hr, ho⟩ := overruns_many h.reading hs hm
  obtain ⟨xs, hxs, -, hp, -⟩ := h.rounds_sound hs hr
  exact ⟨xs, s₁, hxs, hp, ho⟩

/-- Where items follow and what comes after them may, an item is complete. -/
lemma ReadsItems.ready_next (h : ReadsItems step tokens value G halt ready)
    (hxs : ∀ x ∈ xs, G x) (hp : s.Passes (xs.flatMap tokens) s₁)
    (hend : ready s₁.current.kind) : ready s.current.kind := by
  cases xs with
  | nil =>
      rw [List.flatMap_nil, TokenStream.passes_nil_iff] at hp
      rwa [← hp]
  | cons x xs =>
      obtain ⟨t, u, htu, ht⟩ := h.begins ((List.forall_mem_cons.mp hxs).1)
      rw [List.flatMap_cons, htu, List.cons_append] at hp
      rwa [current_of_passes hp]

/-- **A repetition misses no round.** -/
lemma ReadsItems.many_complete (h : ReadsItems step tokens value G halt ready) (hs : s.Ordered)
    (hxs : ∀ x ∈ xs, G x) (hp : s.Passes (xs.flatMap tokens) s₁)
    (hend : xs = [] ∨ ready s₁.current.kind) (hnone : step.Gives s₁ none s') :
    (many step).Gives s (xs.map value) s' := by
  refine (gives_many h.reading hs).mpr ⟨s₁, ?_, hnone⟩
  clear hnone
  induction xs generalizing s with
  | nil =>
      rw [List.flatMap_nil, TokenStream.passes_nil_iff] at hp
      rw [hp]
      exact .refl _
  | cons x xs ih =>
      obtain ⟨hx, hxs⟩ := List.forall_mem_cons.mp hxs
      rw [List.flatMap_cons, TokenStream.passes_append_iff] at hp
      obtain ⟨s₂, hp, hps⟩ := hp
      have hend := hend.resolve_left (by simp)
      exact .round (h.complete hs hx hp (h.ready_next hxs hps hend))
        (ih (hs.passes hp) hxs hps (Or.inr hend))

end Many

/-! ### Operands with operators between them -/

open Grammar

section Chain

variable {op? : Kind → Option ω} {operand : Rule Expr} {G : List Token → Expr → Prop}
  {stop : Kind → Prop}

lemma op?_finish_ne {kind : Kind} {op : ω} (hf : op? .finish = none) (h : op? kind = some op) :
    kind ≠ .finish := fun hk => by rw [hk, hf] at h; simp at h

lemma gives_link_none (op? : Kind → Option ω) (operand : Rule Expr) :
    (Parser.link? op? operand).Gives s none s' ↔ op? s.current.kind = none ∧ s' = s := by
  rw [Parser.link?, gives_bind_current]
  cases op? s.current.kind with
  | none => simp
  | some op => simp

lemma gives_link_some {p : ω × Expr} :
    (Parser.link? op? operand).Gives s (some p) s' ↔
      op? s.current.kind = some p.1 ∧ operand.Gives s.advance p.2 s' := by
  rw [Parser.link?, gives_bind_current]
  cases op? s.current.kind with
  | none => simp
  | some op =>
      simp only [gives_bind_advance, bind_pure_comp, gives_map, Option.some.injEq]
      constructor
      · rintro ⟨e, rfl, h⟩
        exact ⟨rfl, h⟩
      · rintro ⟨rfl, h⟩
        exact ⟨p.2, rfl, h⟩

/-- An operator with the operand after it. -/
lemma reads_links (hr : operand.Reads G stop stop) (hf : op? .finish = none)
    (hop : ∀ kind op, op? kind = some op → stop kind) :
    ReadsItems (Parser.link? op? operand) Link.tokens Link.side
      (fun l => op? l.token.kind = some l.op ∧ G l.right.tokens l.right.tree) stop stop where
  sound := by
    rintro s ⟨op, e⟩ s' hs h
    obtain ⟨ho, h⟩ := gives_link_some.mp h
    have hp := passes_advance hs rfl (op?_finish_ne hf ho)
    obtain ⟨w, hw, hG, hstop⟩ := hr.sound (hs.passes hp) h
    exact ⟨⟨s.current, op, w, e⟩, ⟨ho, hG⟩, rfl, hp.append hw, hstop⟩
  complete := by
    rintro s ⟨t, op, w, e⟩ s' hs ⟨ho, hG⟩ hp hstop
    have ht : s.current = t := current_of_passes hp
    exact gives_link_some.mpr ⟨by rw [ht]; exact ho, hr.complete (hs.advance hp.1) hp.2 hG hstop⟩
  begins := fun {l} h => ⟨l.token, l.right.tokens, rfl, hop _ _ h.1⟩

/-- **A chain reads operands with operators between them**, and stops where
neither goes on. -/
lemma Reads.chain {name : String} {k : Expr → List (ω × Expr) → Expr}
    {isOp : Kind → ω → Prop} (hr : operand.Reads G stop stop) (hf : op? .finish = none)
    (hop : ∀ kind op, op? kind = some op → stop kind)
    (hiff : ∀ kind op, op? kind = some op ↔ isOp kind op) :
    Reads (do
        visit name
        let first ← operand
        let links ← many (Parser.link? op? operand)
        return k first links)
      (fun w e => ∃ first links, Chain isOp G first links ∧ w = chainTokens first links ∧
        e = k first.tree (links.map Link.side))
      (fun kind => stop kind ∧ op? kind = none) (fun kind => stop kind ∧ op? kind = none) where
  sound := by
    intro s e s' hs h
    obtain ⟨first, s₁, links, hfirst, hlinks, rfl⟩ := gives_parts.mp h
    obtain ⟨w, hw, hG, hstop⟩ := hr.sound hs hfirst
    obtain ⟨ls, s₂, hls, rfl, hp, hend, hnone⟩ :=
      (reads_links hr hf hop).many_sound (hs.passes hw) hlinks
    obtain ⟨hno, rfl⟩ := (gives_link_none op? operand).mp hnone
    refine ⟨w ++ ls.flatMap Link.tokens, hw.append hp, ⟨⟨w, first⟩, ls, ?_, rfl, rfl⟩, ?_, hno⟩
    · exact ⟨hG, fun l hl => (hiff _ _).mp (hls l hl).1, fun l hl => (hls l hl).2⟩
    · rcases hend with rfl | hend
      · rw [List.flatMap_nil, TokenStream.passes_nil_iff] at hp
        rwa [hp]
      · exact hend
  complete := by
    rintro s w e s' hs hp ⟨first, links, hc, rfl, rfl⟩ ⟨hstop, hno⟩
    obtain ⟨s₁, hfirst, hlinks⟩ := TokenStream.passes_append_iff.mp hp
    have hitems := reads_links hr hf hop
    have hls : ∀ l ∈ links, op? l.token.kind = some l.op ∧ G l.right.tokens l.right.tree :=
      fun l hl => ⟨(hiff _ _).mpr (hc.ops l hl), hc.rights l hl⟩
    have hnext := hitems.ready_next hls hlinks hstop
    have hmany := hitems.many_complete (hs.passes hfirst) hls hlinks (Or.inr hstop)
      ((gives_link_none op? operand).mpr ⟨hno, rfl⟩)
    exact gives_parts.mpr ⟨first.tree, s₁, _, hr.complete hs hfirst hc.first hnext, hmany, rfl⟩

end Chain

/-! ### Lists -/

/-- A rule declines where no expression begins: it expects one there. -/
def Declines (r : Rule α) : Prop :=
  ∀ s : TokenStream, s.Ordered → s.current.kind.startsOperand = false →
    r.Refuses s (.unexpected s (.named "expression"))

lemma unexpected_declinesAt (s : TokenStream) (e : Expectation) :
    (Failure.unexpected s e).declinesAt s = true := by
  cases h : s.atEnd <;>
    simp [Failure.unexpected, Failure.declinesAt, Failure.ofKind, Failure.isRecoverable,
      ErrorKind.isRecoverable, h]

lemma Declines.exists_declinesAt {r : Rule α} (hd : r.Declines) (hs : s.Ordered)
    (hk : s.current.kind.startsOperand = false) :
    ∃ g, r.Refuses s g ∧ g.declinesAt s = true :=
  ⟨_, hd s hs hk, unexpected_declinesAt s _⟩

lemma Declines.bind {r : Rule α} {f : α → Rule β} (hd : r.Declines) : (r >>= f).Declines :=
  fun s hs hk => refuses_bind.mpr (Or.inl (hd s hs hk))

lemma Declines.visited {r : Rule α} {name : String} (hd : r.Declines) :
    (Rule.visit name >>= fun _ => r).Declines :=
  fun s hs hk => refuses_visited.mpr (hd s hs hk)

section List

variable {π : Type} {words : π → List Token} {value : π → α} {G : π → Prop}
  {separator : Kind}

variable {item : Rule α} {empty : Bool} {halt ready : Kind → Prop}

/-- Behind its separator a further item is one that may be missing. -/
lemma furtherItem_of_separator (hk : s.current.kind = separator) :
    furtherItem ⟨true, empty⟩ separator item s = attempt item s.advance := by
  rw [furtherItem, bind_current_run, if_pos hk]
  simp [bind_run, advance, itemWhere, Run.afterVisits]

lemma furtherItem_of_other (hk : s.current.kind ≠ separator) :
    furtherItem ⟨true, empty⟩ separator item s = (pure none : Rule (Option α)) s := by
  rw [furtherItem, bind_current_run, if_neg hk]

lemma gives_furtherItem_some {a : α} :
    (furtherItem ⟨true, empty⟩ separator item).Gives s (some a) s' ↔
      s.current.kind = separator ∧ item.Gives s.advance a s' := by
  by_cases hk : s.current.kind = separator
  · rw [Gives, furtherItem_of_separator hk, ← Gives, gives_attempt]
    simp [hk]
  · rw [Gives, furtherItem_of_other hk, ← Gives, gives_pure]
    simp [hk]

lemma gives_furtherItem_none :
    (furtherItem ⟨true, empty⟩ separator item).Gives s none s' ↔
      s.current.kind ≠ separator ∧ s' = s ∨ s.current.kind = separator ∧ s' = s.advance ∧
        ∃ g, item.Refuses s.advance g ∧ g.declinesAt s.advance = true := by
  by_cases hk : s.current.kind = separator
  · rw [Gives, furtherItem_of_separator hk, ← Gives, gives_attempt]
    simp [hk]
  · rw [Gives, furtherItem_of_other hk, ← Gives, gives_pure]
    simp [hk]

lemma refuses_furtherItem {g : Failure} :
    (furtherItem ⟨true, empty⟩ separator item).Refuses s g ↔
      s.current.kind = separator ∧ item.Refuses s.advance g ∧
        g.declinesAt s.advance = false := by
  by_cases hk : s.current.kind = separator
  · rw [Refuses, furtherItem_of_separator hk, ← Refuses, refuses_attempt]
    simp [hk]
  · rw [Refuses, furtherItem_of_other hk, ← Refuses]
    simp [hk]

lemma overruns_furtherItem {m : ℕ}
    (h : (furtherItem ⟨true, empty⟩ separator item).Overruns s m) :
    s.current.kind = separator ∧ item.Overruns s.advance m := by
  by_cases hk : s.current.kind = separator
  · rw [Overruns, furtherItem_of_separator hk, ← Overruns, overruns_attempt] at h
    exact ⟨hk, h⟩
  · rw [Overruns, furtherItem_of_other hk, ← Overruns] at h
    exact (not_overruns_pure h).elim

/-- A further item reads its separator. -/
lemma reading_furtherItem (hsep : separator ≠ .finish)
    (hitem : ∀ {s a s'}, s.Ordered → item.Gives s a s' → ∃ w, s.Passes w s') :
    ReadingRounds (furtherItem ⟨true, empty⟩ separator item) := by
  intro s b s₁ hs h
  obtain ⟨hk, h⟩ := gives_furtherItem_some.mp h
  have hp := passes_advance hs hk hsep
  obtain ⟨w, hw⟩ := hitem (hs.passes hp) h
  exact ⟨_, by simp, hp.append hw⟩

/-- The words of items as a language. -/
def WordOf (words : π → List Token) (value : π → α) (G : π → Prop) (w : List Token) (a : α) :
    Prop :=
  ∃ p, G p ∧ w = words p ∧ a = value p

lemma reads_further (empty : Bool) (hr : item.Reads (WordOf words value G) halt ready)
    (hsep : separator ≠ .finish) (hready : ready separator) :
    ReadsItems (furtherItem ⟨true, empty⟩ separator item) (separated words)
      (fun x => value x.2) (fun x => x.1.kind = separator ∧ G x.2) halt ready where
  sound := by
    intro s a s' hs h
    obtain ⟨hk, h⟩ := gives_furtherItem_some.mp h
    have hp := passes_advance hs hk hsep
    obtain ⟨w, hw, ⟨p, hG, rfl, rfl⟩, hh⟩ := hr.sound (hs.passes hp) h
    exact ⟨(s.current, p), ⟨hk, hG⟩, rfl, hp.append hw, hh⟩
  complete := by
    rintro s ⟨t, p⟩ s' hs ⟨hk, hG⟩ hp hrd
    have ht : s.current = t := current_of_passes hp
    exact gives_furtherItem_some.mpr ⟨by rw [ht]; exact hk,
      hr.complete (hs.advance hp.1) hp.2 ⟨p, hG, rfl, rfl⟩ hrd⟩
  begins := fun {x} h => ⟨x.1, words x.2, rfl, by rw [h.1]; exact hready⟩

/-- What may follow a list: no separator, and nothing that an item begins
with. -/
structure EndsList (separator : Kind) (ready : Kind → Prop) (kind : Kind) : Prop where
  not_separator : kind ≠ separator
  not_item : kind.startsOperand = false
  ready : ready kind

/-- The items after the first one. -/
private lemma further_sound (hr : item.Reads (WordOf words value G) halt ready)
    (hsep : separator ≠ .finish) (hready : ready separator) (hs : s.Ordered) {bs : List α}
    (h : (many (furtherItem ⟨true, empty⟩ separator item)).Gives s bs s') :
    ∃ (xs : List (Token × π)) (tail : List Token),
      (∀ x ∈ xs, x.1.kind = separator ∧ G x.2) ∧ IsTail separator tail ∧
      bs = xs.map (fun x => value x.2) ∧
      s.Passes (xs.flatMap (separated words) ++ tail) s' := by
  obtain ⟨xs, s₁, hxs, rfl, hp, -, hnone⟩ := (reads_further empty hr hsep hready).many_sound hs h
  rcases gives_furtherItem_none.mp hnone with ⟨-, rfl⟩ | ⟨hk, rfl, -⟩
  · exact ⟨xs, [], hxs, Or.inl rfl, rfl, by simpa using hp⟩
  · exact ⟨xs, [s₁.current], hxs, Or.inr ⟨_, hk, rfl⟩, rfl,
      hp.append (passes_advance (hs.passes hp) hk hsep)⟩

private lemma further_complete (empty : Bool) (hr : item.Reads (WordOf words value G) halt ready)
    (hd : item.Declines) (hsep : separator ≠ .finish) (hready : ready separator) (hs : s.Ordered)
    {xs : List (Token × π)} {tail : List Token} (hxs : ∀ x ∈ xs, x.1.kind = separator ∧ G x.2)
    (htail : IsTail separator tail) (hp : s.Passes (xs.flatMap (separated words) ++ tail) s')
    (hend : EndsList separator ready s'.current.kind) :
    (many (furtherItem ⟨true, empty⟩ separator item)).Gives s (xs.map fun x => value x.2) s' ∧
      ready s.current.kind := by
  have hitems := reads_further empty hr hsep hready
  rcases htail with rfl | ⟨t, ht, rfl⟩
  · rw [List.append_nil] at hp
    exact ⟨hitems.many_complete hs hxs hp (Or.inr hend.ready)
      (gives_furtherItem_none.mpr (Or.inl ⟨hend.not_separator, rfl⟩)),
      hitems.ready_next hxs hp hend.ready⟩
  · obtain ⟨s₁, hp, hpt⟩ := TokenStream.passes_append_iff.mp hp
    have hk : s₁.current.kind = separator := by rw [current_of_passes hpt]; exact ht
    have hs' : s' = s₁.advance := hpt.2
    have hd := hd.exists_declinesAt ((hs.passes hp).passes hpt) hend.not_item
    rw [hs'] at hd
    exact ⟨hitems.many_complete hs hxs hp (Or.inr (by rw [hk]; exact hready))
      (gives_furtherItem_none.mpr (Or.inr ⟨hk, hs', hd⟩)),
      hitems.ready_next hxs hp (by rw [hk]; exact hready)⟩

/-- The words of a list with separators between the items. -/
def ListOf (separator : Kind) (empty : Bool) (words : π → List Token) (value : π → α)
    (G : π → Prop) (w : List Token) (as : List α) : Prop :=
  ∃ ps : List π, (∀ p ∈ ps, G p) ∧ as = ps.map value ∧
    (Listed separator (ps.map words) w ∨ empty = true ∧ ps = [] ∧ w = [])

lemma gives_itemWhere_some {may : Bool} {a : α} :
    (itemWhere may item).Gives s (some a) s' ↔ item.Gives s a s' := by
  cases may <;> simp [itemWhere]

lemma gives_itemWhere_none {may : Bool} :
    (itemWhere may item).Gives s none s' ↔
      may = true ∧ s' = s ∧ ∃ g, item.Refuses s g ∧ g.declinesAt s = true := by
  cases may <;> simp [itemWhere]

lemma refuses_itemWhere {g : Failure} {may : Bool} :
    (itemWhere may item).Refuses s g ↔
      item.Refuses s g ∧ (may = true → g.declinesAt s = false) := by
  cases may <;> simp [itemWhere]

lemma overruns_itemWhere {m : ℕ} {may : Bool} :
    (itemWhere may item).Overruns s m ↔ item.Overruns s m := by
  cases may <;> simp [itemWhere]

/-- A list gives nothing where an item is missing, or a first item and those behind it. -/
lemma gives_items {name : String} {as : List α} :
    (separatedList name ⟨true, empty⟩ separator item).Gives s as s' ↔
      (as = [] ∧ empty = true ∧ s' = s ∧ ∃ g, item.Refuses s g ∧ g.declinesAt s = true) ∨
        ∃ a s₁ bs, as = a :: bs ∧ item.Gives s a s₁ ∧
          (many (furtherItem ⟨true, empty⟩ separator item)).Gives s₁ bs s' := by
  rw [separatedList, gives_visited, gives_bind]
  constructor
  · rintro ⟨_ | a, s₁, hfirst, h⟩
    · obtain ⟨rfl, rfl⟩ := gives_pure.mp h
      exact .inl ⟨rfl, gives_itemWhere_none.mp hfirst⟩
    · obtain ⟨bs, s₂, hbs, h⟩ := gives_bind.mp h
      obtain ⟨rfl, rfl⟩ := gives_pure.mp h
      exact .inr ⟨a, s₁, bs, rfl, gives_itemWhere_some.mp hfirst, hbs⟩
  · rintro (⟨rfl, h⟩ | ⟨a, s₁, bs, rfl, hfirst, hbs⟩)
    · exact ⟨none, s', gives_itemWhere_none.mpr h, gives_pure.mpr ⟨rfl, rfl⟩⟩
    · exact ⟨some a, s₁, gives_itemWhere_some.mpr hfirst,
        gives_bind.mpr ⟨bs, s', hbs, gives_pure.mpr ⟨rfl, rfl⟩⟩⟩

/-- A list is refused in its first item, or in what follows it. -/
lemma refuses_items {name : String} {g : Failure} :
    (separatedList name ⟨true, empty⟩ separator item).Refuses s g ↔
      (item.Refuses s g ∧ (empty = true → g.declinesAt s = false)) ∨
        ∃ a s₁, item.Gives s a s₁ ∧
          (many (furtherItem ⟨true, empty⟩ separator item)).Refuses s₁ g := by
  rw [separatedList, refuses_visited, refuses_bind, refuses_itemWhere]
  refine or_congr_right ⟨?_, ?_⟩
  · rintro ⟨_ | a, s₁, hfirst, h⟩
    · exact absurd h not_refuses_pure
    · rw [refuses_value fun bs => rfl] at h
      exact ⟨a, s₁, gives_itemWhere_some.mp hfirst, h⟩
  · rintro ⟨a, s₁, hfirst, h⟩
    exact ⟨some a, s₁, gives_itemWhere_some.mpr hfirst, (refuses_value fun bs => rfl).mpr h⟩

lemma overruns_items {name : String} {m : ℕ} :
    (separatedList name ⟨true, empty⟩ separator item).Overruns s m ↔
      item.Overruns s m ∨ ∃ a s₁, item.Gives s a s₁ ∧
        (many (furtherItem ⟨true, empty⟩ separator item)).Overruns s₁ m := by
  rw [separatedList, overruns_visited, overruns_bind, overruns_itemWhere]
  refine or_congr_right ⟨?_, ?_⟩
  · rintro ⟨_ | a, s₁, hfirst, h⟩
    · exact absurd h not_overruns_pure
    · rw [overruns_value fun bs => rfl] at h
      exact ⟨a, s₁, gives_itemWhere_some.mp hfirst, h⟩
  · rintro ⟨a, s₁, hfirst, h⟩
    exact ⟨some a, s₁, gives_itemWhere_some.mpr hfirst, (overruns_value fun bs => rfl).mpr h⟩

/-- **A list reads items with separators between them**, with a separator more
at the end if there is one. -/
lemma Reads.list {name : String} (hr : item.Reads (WordOf words value G) halt ready)
    (hd : item.Declines) (hsep : separator ≠ .finish) (hready : ready separator) :
    (separatedList name ⟨true, empty⟩ separator item).Reads
      (ListOf separator empty words value G) (fun _ => True) (EndsList separator ready) where
  sound := by
    intro s as s' hs h
    obtain ⟨rfl, he, rfl, -⟩ | ⟨a, s₁, bs, rfl, hfirst, hbs⟩ := gives_items.mp h
    · exact ⟨[], rfl, ⟨[], by simp, rfl, Or.inr ⟨he, rfl, rfl⟩⟩, trivial⟩
    · obtain ⟨w, hw, ⟨p, hG, rfl, rfl⟩, -⟩ := hr.sound hs hfirst
      obtain ⟨xs, tail, hxs, htail, rfl, hp⟩ := further_sound hr hsep hready (hs.passes hw) hbs
      refine ⟨_, hw.append hp, ⟨p :: xs.map Prod.snd, ?_, by simp, Or.inl ?_⟩, trivial⟩
      · simp only [List.forall_mem_cons, List.forall_mem_map]
        exact ⟨hG, fun x hx => (hxs x hx).2⟩
      · rw [← List.append_assoc]
        exact listed_items (fun x hx => (hxs x hx).1) htail
  complete := by
    rintro s w as s' hs hp ⟨ps, hps, rfl, hlist | ⟨he, rfl, rfl⟩⟩ hend
    · obtain ⟨p, xs, tail, rfl, hxs, htail, rfl⟩ := hlist.exists_items
      obtain ⟨hp0, hps⟩ := List.forall_mem_cons.mp hps
      rw [List.append_assoc, TokenStream.passes_append_iff] at hp
      obtain ⟨s₁, hw, hp⟩ := hp
      have hxs' : ∀ x ∈ xs, x.1.kind = separator ∧ G x.2 := fun x hx =>
        ⟨hxs x hx, hps x.2 (List.mem_map_of_mem hx)⟩
      obtain ⟨hmany, hnext⟩ :=
        further_complete empty hr hd hsep hready (hs.passes hw) hxs' htail hp hend
      have hfirst := hr.complete hs hw ⟨p, hp0, rfl, rfl⟩ hnext
      exact gives_items.mpr (Or.inr ⟨value p, s₁, _, by simp, hfirst, hmany⟩)
    · rw [TokenStream.passes_nil_iff] at hp
      subst hp
      exact gives_items.mpr (Or.inl ⟨rfl, he, rfl, hd.exists_declinesAt hs hend.not_item⟩)

/-- A list that needs an item declines where an item does. -/
lemma Declines.list {name : String} (hd : item.Declines) :
    (separatedList name ⟨true, false⟩ separator item).Declines := by
  intro s hs hk
  exact refuses_items.mpr (Or.inl ⟨hd s hs hk, fun he => absurd he Bool.false_ne_true⟩)

end List

/-! ### Brackets -/

/-- Words in brackets, inside which there is room for one bracket less. -/
def InBrackets (opening closing : Kind) (n : ℕ) (G : ℕ → List Token → α → Prop) (w : List Token)
    (p : α × Span) : Prop :=
  ∃ m u, ∃ o c : Token, n = m + 1 ∧ o.kind = opening ∧ c.kind = closing ∧ w = o :: u ++ [c] ∧
    G m u p.1 ∧ p.2 = extent w

lemma gives_descend {scope : Scope} {e : Rule Expr} :
    scope.descend.Gives s e s' ↔ scope.inner = some e ∧ s' = s := by
  rw [Scope.descend]
  cases scope.inner with
  | none => simp
  | some e' => simp [eq_comm]

/-- Below a bracket there is room for one bracket less. -/
lemma ofRoom_inner {limit : ℤ} {n : ℕ} {e : Rule Expr} :
    (Scope.ofRoom limit n).inner = some e ↔ ∃ m, n = m + 1 ∧ e = Parser.expr limit m := by
  cases n <;> simp [Scope.ofRoom, eq_comm]

/-- **A bracket reads what stands inside and both its tokens.** -/
lemma Reads.bracketed {opening closing : Kind} (inside : Rule Expr → Rule α)
    {G : ℕ → List Token → α → Prop} {halt ready : Kind → Prop} {limit : ℤ} {n : ℕ}
    (hr : ∀ m, n = m + 1 → (inside (Parser.expr limit m)).Reads (G m) halt ready)
    (ho : opening ≠ .finish) (hc : closing ≠ .finish) (hready : ready closing) :
    ((Scope.ofRoom limit n).bracketed opening closing inside).Reads
      (InBrackets opening closing n G) (fun _ => True) (fun _ => True) where
  sound := by
    rintro s ⟨a, span⟩ s' hs h
    rw [Scope.bracketed] at h
    obtain ⟨h, hspan⟩ := gives_spanned.mp h
    simp only [gives_bind, gives_token, gives_map, bind_pure_comp] at h
    obtain ⟨o, s₁, ⟨hok, rfl, rfl⟩, e, s₂, hdesc, x, s₃, hinside, c, rfl, hck, rfl, rfl⟩ := h
    obtain ⟨hinner, rfl⟩ := gives_descend.mp hdesc
    obtain ⟨m, rfl, rfl⟩ := ofRoom_inner.mp hinner
    have hop := passes_advance hs hok ho
    obtain ⟨u, hu, hG, -⟩ := (hr m rfl).sound (hs.passes hop) hinside
    have hcp := passes_advance ((hs.passes hop).passes hu) hck hc
    have hp := hop.append (hu.append hcp)
    exact ⟨_, hp, ⟨m, u, _, _, rfl, hok, hck, rfl, hG, by
      rw [hspan, hp.spanFrom_eq (by simp)]⟩, trivial⟩
  complete := by
    rintro s w ⟨a, span⟩ s' hs hp ⟨m, u, o, c, rfl, hok, hck, rfl, hG, hspan⟩ -
    have hp' := hp
    rw [List.cons_append, TokenStream.passes_cons_iff] at hp'
    obtain ⟨hop, hp'⟩ := hp'
    obtain ⟨s₂, hu, hcp⟩ := TokenStream.passes_append_iff.mp hp'
    have hcur : s.current = o := TokenStream.current_of_peek hop
    have hcurc : s₂.current = c := current_of_passes hcp
    rw [Scope.bracketed]
    refine gives_spanned.mpr ⟨?_, by rw [hspan, hp.spanFrom_eq (by simp)]⟩
    simp only [gives_bind, gives_token, gives_map, bind_pure_comp]
    exact ⟨o, s.advance, ⟨by rw [hcur]; exact hok, hcur.symm, rfl⟩, Parser.expr limit m, s.advance,
      gives_descend.mpr ⟨ofRoom_inner.mpr ⟨m, rfl, rfl⟩, rfl⟩, a, s₂,
      (hr m rfl).complete (hs.advance hop) hu hG (by rw [hcurc, hck]; exact hready), c, rfl,
      by rw [hcurc]; exact hck, hcurc.symm, hcp.2⟩

end Rule

end ArrayExpr
