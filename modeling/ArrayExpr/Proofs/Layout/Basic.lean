/-
Two layouts of one sequence of tokens.

* `Token.Alike`: tokens of one kind and one text, at any places;
* `Layouts`: two sequences of tokens that are alike one by one;
* `Layouts.Same`: the token at one index in the first layout and in the second;
* `Layouts.Offsets`, `Layouts.Spans`, `Layouts.Failures`: offsets, spans and
  failures that name the same tokens;
* `Layouts.Streams`: streams behind equally many tokens; what a rule can ask a
  stream has corresponding answers in both layouts.

Rules compare offsets. That the answers correspond rests on `Offsets.lt_iff`:
offsets grow along the tokens of both layouts.
-/
import ArrayExpr.Proofs.Rule.Stream
import ArrayExpr.Failure

namespace ArrayExpr

/-- Tokens that differ at most in their places. -/
structure Token.Alike (t t' : Token) : Prop where
  kind : t.kind = t'.kind
  text : t.text = t'.text

/-- Two layouts of one sequence of tokens. -/
structure Layouts where
  first : Tokens
  second : Tokens
  alike : List.Forall₂ Token.Alike first.toList second.toList
  first_ordered : (TokenStream.ofTokens first).Ordered
  second_ordered : (TokenStream.ofTokens second).Ordered

namespace Layouts

variable (L : Layouts) {t t' u u' : Token} {o o' p p' : ℕ}

/-! ### Tokens -/

/-- The token at one index in both layouts. -/
def Same (t t' : Token) : Prop :=
  ∃ i : ℕ, L.first.toList[i]? = some t ∧ L.second.toList[i]? = some t'

variable {L}

/-- Matched tokens have one kind and one text. -/
lemma Same.alike (h : L.Same t t') : t.Alike t' := by
  obtain ⟨i, ht, ht'⟩ := h
  obtain ⟨hi, rfl⟩ := List.getElem?_eq_some_iff.mp ht
  obtain ⟨hi', rfl⟩ := List.getElem?_eq_some_iff.mp ht'
  exact L.alike.get hi hi'

/-- The tokens of a text start one behind the other. -/
lemma start_lt_iff {tokens : Tokens} (hs : (TokenStream.ofTokens tokens).Ordered) {i j : ℕ}
    (ht : tokens.toList[i]? = some t) (hu : tokens.toList[j]? = some u) :
    t.start.offset < u.start.offset ↔ i < j := by
  obtain ⟨hi, rfl⟩ := List.getElem?_eq_some_iff.mp ht
  obtain ⟨hj, rfl⟩ := List.getElem?_eq_some_iff.mp hu
  have hinc := List.pairwise_iff_getElem.mp hs.increasing
  constructor
  · intro hlt
    by_contra hij
    rcases Nat.lt_or_eq_of_le (Nat.le_of_not_lt hij) with hji | rfl
    · exact Nat.lt_asymm hlt (hinc j i hj hi hji)
    · exact Nat.lt_irrefl _ hlt
  · exact hinc i j hi hj

/-! ### Offsets -/

variable (L)

/-- The offsets where one token starts in both layouts. -/
def Offsets (o o' : ℕ) : Prop :=
  ∃ t t', L.Same t t' ∧ o = t.start.offset ∧ o' = t'.start.offset

variable {L}

/-- They start at matched offsets. -/
lemma Same.offsets (h : L.Same t t') : L.Offsets t.start.offset t'.start.offset :=
  ⟨t, t', h, rfl, rfl⟩

/-- **Offsets compare alike in both layouts.** -/
lemma Offsets.lt_iff (h : L.Offsets o o') (h' : L.Offsets p p') : o < p ↔ o' < p' := by
  obtain ⟨t, t', ⟨i, ht, ht'⟩, rfl, rfl⟩ := h
  obtain ⟨u, u', ⟨j, hu, hu'⟩, rfl, rfl⟩ := h'
  rw [start_lt_iff L.first_ordered ht hu, start_lt_iff L.second_ordered ht' hu']

/-- Offsets match one to one. -/
lemma Offsets.eq_iff (h : L.Offsets o o') (h' : L.Offsets p p') : o = p ↔ o' = p' := by
  have h1 := h.lt_iff h'
  have h2 := h'.lt_iff h
  omega

/-! ### Spans -/

variable (L)

/-- The spans from the start of one token to the end of another in both
layouts. -/
def Spans (sp sp' : Span) : Prop :=
  ∃ t t' u u', L.Same t t' ∧ L.Same u u' ∧
    sp = ⟨t.start.offset, u.stop⟩ ∧ sp' = ⟨t'.start.offset, u'.stop⟩

variable {L}

/-- Matched spans start at matched offsets. -/
lemma Spans.start {sp sp' : Span} (h : L.Spans sp sp') : L.Offsets sp.start sp'.start := by
  obtain ⟨t, t', u, u', ht, -, rfl, rfl⟩ := h
  exact ht.offsets

/-- A span that starts where a token does and stops where another span does. -/
lemma Spans.from_offsets {sp sp' : Span} (ho : L.Offsets o o') (h : L.Spans sp sp') :
    L.Spans ⟨o, sp.stop⟩ ⟨o', sp'.stop⟩ := by
  obtain ⟨t, t', ht, rfl, rfl⟩ := ho
  obtain ⟨-, -, u, u', -, hu, rfl, rfl⟩ := h
  exact ⟨t, t', u, u', ht, hu, rfl, rfl⟩

/-- Spans that are joined from matched ones match. -/
lemma Spans.through {sp sp' sq sq' : Span} (h : L.Spans sp sp') (h' : L.Spans sq sq') :
    L.Spans (sp.through sq) (sp'.through sq') :=
  Spans.from_offsets h.start h'

/-! ### Failures -/

variable (L)

/-- Expectations that quote the same bracket. -/
inductive Expectations : Expectation → Expectation → Prop
  | named (what : String) : Expectations (.named what) (.named what)
  | closing (what : String) {t t' : Token} (opener : L.Same t t') :
      Expectations (.closing what t) (.closing what t')
  | nesting (limit : ℤ) : Expectations (.nesting limit) (.nesting limit)

/-- Failures at the same token, for the same reason. -/
structure Failures (g g' : Failure) : Prop where
  kind : g.kind = g'.kind
  offset : L.Offsets g.offset g'.offset
  expected : L.Expectations g.expected g'.expected
  found : Option.Rel L.Same g.found g'.found
  alternative : g.alternative = g'.alternative

variable {L} {g g' f f' : Failure}

/-- Matched failures are of one kind, so both or neither can be recovered from. -/
lemma Failures.isRecoverable_eq (h : L.Failures g g') : g.isRecoverable = g'.isRecoverable := by
  rw [Failure.isRecoverable, Failure.isRecoverable, h.kind]

/-- The name of an alternative is put on both. -/
lemma Failures.inAlternative (h : L.Failures g g') (name : String) :
    L.Failures (g.inAlternative name) (g'.inAlternative name) := by
  have halt := h.alternative
  rw [Failure.inAlternative, Failure.inAlternative, ← halt]
  split
  · split
    · exact ⟨h.kind, h.offset, h.expected, h.found, rfl⟩
    · exact h
  · exact ⟨h.kind, h.offset, h.expected, h.found, rfl⟩

/-- The one that lies further on is chosen on both sides. -/
lemma Failures.furthest (h : L.Failures f f') (h' : L.Failures g g') :
    L.Failures (f.furthest g) (f'.furthest g') := by
  have hlt := h.offset.lt_iff h'.offset
  rw [Failure.furthest, Failure.furthest]
  by_cases hfg : f.offset < g.offset
  · rw [if_pos hfg, if_pos (hlt.mp hfg)]
    exact h'
  · rw [if_neg hfg, if_neg fun hfg' => hfg (hlt.mpr hfg')]
    exact h

/-! ### Streams -/

variable (L)

/-- Streams behind equally many tokens of both layouts. -/
def Streams (s s' : TokenStream) : Prop :=
  ∃ v v', v.length = v'.length ∧
    (TokenStream.ofTokens L.first).Passes v s ∧ (TokenStream.ofTokens L.second).Passes v' s'

variable {L} {s s' r r' : TokenStream}

/-- Both streams before the first token. -/
lemma streams_ofTokens :
    L.Streams (TokenStream.ofTokens L.first) (TokenStream.ofTokens L.second) :=
  ⟨[], [], rfl, rfl, rfl⟩

/-- The tokens passed and those ahead are all there are. -/
lemma toList_eq {tokens : Tokens} {v : List Token} (h : (TokenStream.ofTokens tokens).Passes v s) :
    tokens.toList = v ++ (s.ahead ++ [s.finish]) := by
  have hahead : tokens.items = v ++ s.ahead := h.ahead_eq
  have hfinish : s.finish = tokens.finish := h.finish_eq
  rw [Tokens.toList, hahead, hfinish, List.append_assoc]

/-- The current token is the one behind those that were passed. -/
lemma getElem?_current {tokens : Tokens} {v : List Token}
    (h : (TokenStream.ofTokens tokens).Passes v s) : tokens.toList[v.length]? = some s.current := by
  rw [toList_eq h, List.getElem?_append_right (Nat.le_refl _), Nat.sub_self,
    ← List.head?_eq_getElem?, TokenStream.offset_eq_head]

namespace Streams

variable (h : L.Streams s s')
include h

/-- Matched streams have passed as many tokens. -/
lemma index_eq : s.index = s'.index := by
  obtain ⟨v, v', hlen, hv, hv'⟩ := h
  rw [hv.index_eq, hv'.index_eq, hlen]
  rfl

/-- Their current tokens match. -/
lemma current : L.Same s.current s'.current := by
  obtain ⟨v, v', hlen, hv, hv'⟩ := h
  exact ⟨v.length, getElem?_current hv, by rw [hlen]; exact getElem?_current hv'⟩

lemma kind_eq : s.current.kind = s'.current.kind := h.current.alike.kind

lemma text_eq : s.current.text = s'.current.text := h.current.alike.text

/-- They stand at matched offsets. -/
lemma offsets : L.Offsets s.offset s'.offset := h.current.offsets

/-- They have as many tokens ahead. -/
lemma ahead_length : s.ahead.length = s'.ahead.length := by
  obtain ⟨v, v', hlen, hv, hv'⟩ := h
  have hall := L.alike.length_eq
  rw [toList_eq hv, toList_eq hv'] at hall
  simp only [List.length_append, List.length_cons, List.length_nil] at hall
  omega

/-- Both are at the end or neither is. -/
lemma atEnd_eq : s.atEnd = s'.atEnd := by
  rw [TokenStream.atEnd, TokenStream.atEnd, Bool.eq_iff_iff, List.isEmpty_iff_length_eq_zero,
    List.isEmpty_iff_length_eq_zero, h.ahead_length]

/-- Both have a token ahead or neither has. -/
lemma peek? : Option.Rel L.Same s.peek? s'.peek? := by
  cases hp : s.peek? with
  | none =>
      have hend := TokenStream.peek?_eq_none_iff.mp hp
      rw [TokenStream.peek?_eq_none_iff.mpr (h.atEnd_eq ▸ hend)]
      exact .none
  | some t =>
      cases hp' : s'.peek? with
      | none =>
          rw [TokenStream.peek?_eq_none_iff, ← h.atEnd_eq, ← TokenStream.peek?_eq_none_iff,
            hp] at hp'
          cases hp'
      | some t' =>
          rw [← TokenStream.current_of_peek hp, ← TokenStream.current_of_peek hp']
          exact .some h.current

lemma ordered : s.Ordered := by
  obtain ⟨v, -, -, hv, -⟩ := h
  exact L.first_ordered.passes hv

/-- A step on both sides leads to matched streams. -/
lemma advance : L.Streams s.advance s'.advance := by
  have hpeek := h.peek?
  obtain ⟨v, v', hlen, hv, hv'⟩ := h
  cases hp : s.peek? with
  | none =>
      cases hp' : s'.peek? with
      | some t' => rw [hp, hp'] at hpeek; cases hpeek
      | none =>
          rw [TokenStream.peek?, List.head?_eq_none_iff] at hp hp'
          rw [TokenStream.advance, TokenStream.advance, hp, hp']
          exact ⟨v, v', hlen, hv, hv'⟩
  | some t =>
      cases hp' : s'.peek? with
      | none => rw [hp, hp'] at hpeek; cases hpeek
      | some t' =>
          exact ⟨v ++ [t], v' ++ [t'], by simp [hlen],
            hv.append (TokenStream.passes_one hp), hv'.append (TokenStream.passes_one hp')⟩

/-- In front of a proper token a stream moves. -/
lemma advance_index (hk : s.current.kind ≠ .finish) : s.advance.index = s.index + 1 :=
  TokenStream.advance_index (h.ordered.peek_current hk)

/-- Rules decline on both sides or on neither. -/
lemma declinesAt_eq (hg : L.Failures g g') : g.declinesAt s = g'.declinesAt s' := by
  have hoff := hg.offset.eq_iff h.offsets
  rw [Failure.declinesAt, Failure.declinesAt, hg.isRecoverable_eq]
  simp only [hoff]

/-- A failure of one kind is raised at matched places. -/
lemma ofKind {expected expected' : Expectation} (kind : ErrorKind)
    (he : L.Expectations expected expected') :
    L.Failures (.ofKind kind s expected) (.ofKind kind s' expected') :=
  ⟨rfl, h.offsets, he, h.peek?, rfl⟩

/-- So is an unexpected token. -/
lemma unexpected {expected expected' : Expectation} (he : L.Expectations expected expected') :
    L.Failures (.unexpected s expected) (.unexpected s' expected') := by
  rw [Failure.unexpected, Failure.unexpected, ← h.atEnd_eq]
  exact h.ofKind _ he

/-- The last token passed. -/
lemma consumedEnd (hpos : 0 < s.index) :
    ∃ u u', L.Same u u' ∧ s.consumedEnd = u.stop ∧ s'.consumedEnd = u'.stop := by
  obtain ⟨v, v', hlen, hv, hv'⟩ := h
  rw [hv.index_eq, TokenStream.ofTokens, Nat.zero_add] at hpos
  have hne : v ≠ [] := List.length_pos_iff.mp hpos
  have hne' : v' ≠ [] := List.length_pos_iff.mp (hlen ▸ hpos)
  obtain ⟨w, u, rfl⟩ := (List.eq_nil_or_concat v).resolve_left hne
  obtain ⟨w', u', rfl⟩ := (List.eq_nil_or_concat v').resolve_left hne'
  refine ⟨u, u', ⟨w.length, ?_, ?_⟩, ?_, ?_⟩
  · simp [toList_eq hv]
  · have hw : w.length = w'.length := by simpa using hlen
    simp [toList_eq hv', hw]
  · rw [hv.consumedEnd_eq hne, List.concat_eq_append, extent_append_stop w (List.cons_ne_nil u [])]
    rfl
  · rw [hv'.consumedEnd_eq hne', List.concat_eq_append,
      extent_append_stop w' (List.cons_ne_nil u' [])]
    rfl

/-- The tokens between two streams span corresponding stretches. -/
lemma spanFrom (hr : L.Streams r r') (hlt : s.index < r.index) :
    L.Spans (r.spanFrom s) (r'.spanFrom s') := by
  obtain ⟨u, u', hu, hstop, hstop'⟩ := hr.consumedEnd (Nat.zero_lt_of_lt hlt)
  have hlt' : s'.index < r'.index := by rwa [← h.index_eq, ← hr.index_eq]
  rw [TokenStream.spanFrom, TokenStream.spanFrom, if_neg hlt.ne', if_neg hlt'.ne', hstop, hstop']
  exact ⟨_, _, u, u', h.current, hu, rfl, rfl⟩

end Streams

end Layouts

end ArrayExpr
