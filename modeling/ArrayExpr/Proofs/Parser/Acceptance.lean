/-
The parser accepts what the grammar derives.

* `Kind.goesOn`: the tokens that an expression goes on with;
* `parse_iff_derives`: a parse succeeds with a tree after the first `k` tokens
  exactly if these derive from the grammar with that tree, every `=` has a
  target on its left, no more brackets than the limit are open at once, and
  the token after them is none that an expression goes on with.
-/
import ArrayExpr.Parser.Parse
import ArrayExpr.Proofs.Parser.Reading
import ArrayExpr.Proofs.Scanner.Round

namespace ArrayExpr

open Grammar

/-- The tokens that an expression goes on with. -/
def Kind.goesOn : Kind → Bool
  | openParen | openBracket | dot | arith _ | compare _ | assign => true
  | _ => false

lemma stops_assignment_iff (kind : Kind) : Stops .assignment kind ↔ kind.goesOn = false := by
  rcases kind with _ | _ | (_ | _ | _ | _) | _ <;>
    simp [Stops, Kind.goesOn, Kind.startsSuffix, Kind.productOp?, Kind.sumOp?, Kind.compareOp?]

namespace TokenStream

variable {tokens : Tokens} {w : List Token} {s : TokenStream}

lemma items_of_passes_ofTokens (h : (ofTokens tokens).Passes w s) :
    tokens.items = w ++ s.ahead := h.ahead_eq

lemma index_of_passes_ofTokens (h : (ofTokens tokens).Passes w s) : s.index = w.length := by
  rw [h.index_eq, ofTokens, Nat.zero_add]

/-- What was passed from the start are the first tokens. -/
lemma take_of_passes_ofTokens (h : (ofTokens tokens).Passes w s) :
    s.index ≤ tokens.items.length ∧ w = tokens.items.take s.index := by
  rw [items_of_passes_ofTokens h, index_of_passes_ofTokens h, List.length_append, List.take_left]
  exact ⟨Nat.le_add_right _ _, rfl⟩

/-- The token ahead of what was passed from the start. -/
lemma current_of_passes_ofTokens (h : (ofTokens tokens).Passes w s) :
    s.current = tokens.items[s.index]?.getD tokens.finish := by
  have hitems := items_of_passes_ofTokens h
  have hindex := index_of_passes_ofTokens h
  have hfinish : s.finish = tokens.finish := h.finish_eq
  rw [hitems, hindex, List.getElem?_append_right le_rfl, Nat.sub_self, current, hfinish]
  cases s.ahead <;> rfl

lemma exists_passes_ofTokens {k : ℕ} (hk : k ≤ tokens.items.length) :
    ∃ s, (ofTokens tokens).Passes (tokens.items.take k) s ∧ s.index = k := by
  obtain ⟨s, hs, -⟩ := exists_passes (s := ofTokens tokens)
    (List.take_append_drop k tokens.items).symm
  refine ⟨s, hs, ?_⟩
  rw [hs.index_eq, ofTokens, Nat.zero_add, List.length_take, min_eq_left hk]

end TokenStream

/-- A source with tokens is accepted where the rule for expressions gives a
tree. -/
lemma parseTokens_accepted_iff {source : String} {tokens : Tokens}
    (ht : tokenize source = .ok tokens) (limit : ℤ) (tree : Expr) (rest : TokenStream) :
    (parseTokens limit source).verdict = .accepted (tree, rest) ↔
      (Parser.expr limit limit.toNat).Gives (.ofTokens tokens) tree rest := by
  rw [parseTokens, ht, Rule.Gives, Parser.root]
  simp only [Report.ofRun]
  split <;> simp_all

lemma parse_verdict_eq {source : String} {limit : ℤ} {tree : Expr} {rest : TokenStream}
    (h : (parseTokens limit source).verdict = .accepted (tree, rest)) :
    (parse limit source).verdict = .accepted ⟨tree, rest.consumedEnd⟩ := by
  rw [parse, Report.map, h]
  rfl

/-- The tokens that an accepted parse consumes derive its tree. -/
lemma parse_accepted {source : String} {limit : ℤ} {parsed : Parsed}
    (h : (parse limit source).verdict = .accepted parsed) :
    ∃ tokens rest w, tokenize source = .ok tokens ∧
      (parseTokens limit source).verdict = .accepted (parsed.tree, rest) ∧
      (TokenStream.ofTokens tokens).Passes w rest ∧
      Within True limit.toNat .assignment w parsed.tree ∧ (extent w).stop = parsed.consumed := by
  obtain ⟨rest, hverdict, hconsumed⟩ : ∃ rest,
      (parseTokens limit source).verdict = .accepted (parsed.tree, rest) ∧
        rest.consumedEnd = parsed.consumed := by
    rw [parse, Report.map] at h
    rcases hv : (parseTokens limit source).verdict with ⟨tree, rest⟩ | e | n <;>
      rw [hv] at h <;> simp only [Verdict.map, reduceCtorEq, Verdict.accepted.injEq] at h
    exact ⟨rest, by rw [← h], by rw [← h]⟩
  cases ht : tokenize source with
  | error e =>
      rw [parseTokens, ht] at hverdict
      cases hverdict
  | ok tokens =>
      obtain ⟨w, hp, hw, -⟩ := (Parser.reads_expr limit limit.toNat).sound (tokenize_ordered ht)
        ((parseTokens_accepted_iff ht limit parsed.tree rest).mp hverdict)
      refine ⟨tokens, rest, w, rfl, hverdict, hp, hw, ?_⟩
      rw [← hp.consumedEnd_eq hw.ne_nil, hconsumed]

/-- A source is accepted exactly if its first tokens derive and keep to the conditions, and
what is left, if anything may be left, does not go on. -/
lemma parseSource_accepted_iff_within {source : String} {tokens : Tokens}
    (ht : tokenize source = .ok tokens) (limit : ℤ) (allowPartial : Bool) (tree : Expr) :
    parseSource limit allowPartial source = .accepted tree ↔
      ∃ w rest, tokens.items = w ++ rest ∧ Within True limit.toNat .assignment w tree ∧
        (allowPartial = false → rest = []) ∧ ∀ t ∈ rest.head?, t.kind.goesOn = false := by
  have hs := tokenize_ordered ht
  have hr := Parser.reads_expr limit limit.toNat
  have haccepted : parseSource limit allowPartial source = .accepted tree ↔
      ∃ rest, (parseTokens limit source).verdict = .accepted (tree, rest) ∧
        (allowPartial = false → rest.ahead = []) := by
    rw [parseSource]
    split
    · next tree' rest h =>
      by_cases hend : rest.ahead = [] <;> cases allowPartial <;>
        simp_all [TokenStream.atEnd]
    · simp_all
    · simp_all
  -- The token in front of which a parse stops is the one that closes the source at its end.
  have hstops : ∀ {w s}, (TokenStream.ofTokens tokens).Passes w s →
      (Stops .assignment s.current.kind ↔ ∀ t ∈ s.ahead.head?, t.kind.goesOn = false) := by
    intro w s hp
    rw [stops_assignment_iff]
    cases hahead : s.ahead with
    | nil =>
        rw [(hs.passes hp).current_of_atEnd (by rw [TokenStream.atEnd, hahead]; rfl)]
        simp [Kind.goesOn]
    | cons t ahead => simp [TokenStream.current, hahead]
  rw [haccepted]
  constructor
  · rintro ⟨s, h, hend⟩
    obtain ⟨w, hp, hw, hstop⟩ := hr.sound hs ((parseTokens_accepted_iff ht _ _ _).mp h)
    exact ⟨w, s.ahead, TokenStream.items_of_passes_ofTokens hp, hw, hend, (hstops hp).mp hstop⟩
  · rintro ⟨w, rest, hitems, hw, hend, hrest⟩
    obtain ⟨s, hp, rfl⟩ := TokenStream.exists_passes (s := .ofTokens tokens) hitems
    exact ⟨s, (parseTokens_accepted_iff ht limit tree s).mpr
      (hr.complete hs hp hw ((hstops hp).mpr hrest)), hend⟩

/-- A whole source is accepted if its tokens derive and keep to the
conditions. -/
lemma parseSource_accepted_iff {source : String} {tokens : Tokens}
    (ht : tokenize source = .ok tokens) (hlong : ∀ t ∈ tokens.items, ¬ t.IsLongInteger)
    (limit : ℤ) (tree : Expr) :
    parseSource limit false source = .accepted tree ↔
      Derives .assignment tokens.items tree ∧ TargetsValid tree ∧
        AtMostOpen limit.toNat tokens.items := by
  rw [parseSource_accepted_iff_within ht]
  constructor
  · rintro ⟨w, rest, hitems, ⟨hd, hf⟩, hend, -⟩
    rw [hend rfl, List.append_nil] at hitems
    rw [hitems]
    exact ⟨hd, hf.targets trivial, hf.bounds.depth⟩
  · rintro ⟨hd, htargets, hdepth⟩
    exact ⟨tokens.items, [], (List.append_nil _).symm,
      ⟨hd, fun _ => htargets, hdepth, fun _ => hlong⟩, fun _ => rfl, by simp⟩

/-- **The parser is the grammar.** A parse succeeds with a tree after the first
`k` tokens exactly if these derive from the grammar with that tree, every `=`
has a target on its left, no more brackets than the limit are open at once,
and the token after them is none that an expression goes on with. -/
theorem parse_iff_derives {source : String} {tokens : Tokens}
    (ht : tokenize source = .ok tokens) (hlong : ∀ t ∈ tokens.items, ¬ t.IsLongInteger)
    (limit : ℤ) (k : ℕ) (tree : Expr) :
    (∃ rest, (parseTokens limit source).verdict = .accepted (tree, rest) ∧ rest.index = k ∧
        (parse limit source).verdict = .accepted ⟨tree, rest.consumedEnd⟩) ↔
      k ≤ tokens.items.length ∧
        Derives .assignment (tokens.items.take k) tree ∧ TargetsValid tree ∧
        AtMostOpen limit.toNat (tokens.items.take k) ∧
        (tokens.items[k]?.getD tokens.finish).kind.goesOn = false := by
  have hs := tokenize_ordered ht
  have hr := Parser.reads_expr limit limit.toNat
  constructor
  · rintro ⟨rest, h, rfl, -⟩
    obtain ⟨w, hp, ⟨hd, hf⟩, hstop⟩ := hr.sound hs ((parseTokens_accepted_iff ht _ _ _).mp h)
    obtain ⟨hk, rfl⟩ := TokenStream.take_of_passes_ofTokens hp
    rw [TokenStream.current_of_passes_ofTokens hp, stops_assignment_iff] at hstop
    exact ⟨hk, hd, hf.targets trivial, hf.bounds.depth, hstop⟩
  · rintro ⟨hk, hd, htargets, hdepth, hstop⟩
    obtain ⟨rest, hp, rfl⟩ := TokenStream.exists_passes_ofTokens hk
    have hshort : ∀ t ∈ tokens.items.take rest.index, ¬ t.IsLongInteger := fun t h =>
      hlong t (List.mem_of_mem_take h)
    have hw : Within True limit.toNat .assignment (tokens.items.take rest.index) tree :=
      ⟨hd, fun _ => htargets, hdepth, fun _ => hshort⟩
    rw [← TokenStream.current_of_passes_ofTokens hp, ← stops_assignment_iff] at hstop
    have h := (parseTokens_accepted_iff ht limit tree rest).mpr (hr.complete hs hp hw hstop)
    exact ⟨rest, h, rfl, parse_verdict_eq h⟩

/-- The theorem at the source `x=y`. -/
theorem parse_iff_derives_assignment :
    ∃ tokens, tokenize "x=y" = .ok tokens ∧ (∀ t ∈ tokens.items, ¬ t.IsLongInteger) ∧
      ∀ limit k tree,
        (∃ rest, (parseTokens limit "x=y").verdict = .accepted (tree, rest) ∧ rest.index = k ∧
            (parse limit "x=y").verdict = .accepted ⟨tree, rest.consumedEnd⟩) ↔
          k ≤ tokens.items.length ∧
            Derives .assignment (tokens.items.take k) tree ∧ TargetsValid tree ∧
            AtMostOpen limit.toNat (tokens.items.take k) ∧
            (tokens.items[k]?.getD tokens.finish).kind.goesOn = false := by
  have ht : tokenize "x=y" = .ok ⟨[⟨.name, some "x", ⟨0, 1, 1⟩, 1⟩,
      ⟨.assign, some "=", ⟨1, 1, 2⟩, 2⟩, ⟨.name, some "y", ⟨2, 1, 3⟩, 3⟩],
      ⟨.finish, none, ⟨3, 1, 4⟩, 3⟩⟩ := rfl
  have hlong : ∀ t ∈ [⟨.name, some "x", ⟨0, 1, 1⟩, 1⟩, ⟨.assign, some "=", ⟨1, 1, 2⟩, 2⟩,
      (⟨.name, some "y", ⟨2, 1, 3⟩, 3⟩ : Token)], ¬ t.IsLongInteger := by
    simp [Token.IsLongInteger]
  exact ⟨_, ht, hlong, parse_iff_derives ht hlong⟩

end ArrayExpr
