/-
A list read in one pass against a list read in two branches.

* `Rule.twoBranchList`: items that a separator follows, for as long as there are any, and
  then one item more that may be missing;
* `Rule.Kept`: the items that a separator follows, with the visits paid to them; both
  rules begin with them (`onePass_kept`, `twoBranch_kept`);
* `onePass_end`, `twoBranch_end`: what the two rules do in front of the last item;
* `separatedList_eq_twoBranchList`: **in front of its closing token the list read in one
  pass is the list read in two branches**, and it runs its item once at each place.
-/
import ArrayExpr.Proofs.Rule.OnePass
import ArrayExpr.Proofs.Parser.Reading
import ArrayExpr.Proofs.Scanner.Round

namespace ArrayExpr

namespace Rule

variable {α β : Type} {item : Rule α} {separator closer : Kind} {s s₁ s' : TokenStream}

/-! ### Two branches -/

/-- A rule that may be missing, whatever its failure is. -/
def optional (r : Rule α) : Rule (Option α) := fun s =>
  match r s with
  | ⟨.success a rest, visits⟩ => ⟨.success (some a) rest, visits⟩
  | ⟨.failure _, visits⟩ => ⟨.success none s, visits⟩
  | ⟨.overlong n, visits⟩ => ⟨.overlong n, visits⟩

/-- An item with a separator behind it. -/
def followed (separator : Kind) (item : Rule α) : Rule α := do
  let a ← item
  let _ ← token separator none none
  return a

/-- Items that a separator follows, and one more that may be missing. It is tried again at
the place where no separator was found behind it. -/
def twoBranchList (separator : Kind) (item : Rule α) : Rule (List α) := do
  let kept ← many (optional (followed separator item))
  match ← optional item with
  | none => return kept
  | some last => return kept ++ [last]

/-- A list with the token that closes it. -/
def closedBy (closer : Kind) (expected : Option String) (opener : Option Token)
    (list : Rule (List α)) : Rule (List α) := do
  let values ← list
  let _ ← token closer expected opener
  return values

/-- A rule that leaves nothing but a mark in the log, for every time it is run. -/
def logged (mark : String) (r : Rule α) : Rule α := fun s =>
  ⟨(r s).outcome, [⟨mark, s.index⟩]⟩

lemma gives_closedBy {expected : Option String} {opener : Option Token} {list : Rule (List α)}
    {values : List α} :
    (closedBy closer expected opener list).Gives s values s' ↔
      ∃ s₁, list.Gives s values s₁ ∧ s₁.current.kind = closer ∧ s' = s₁.advance := by
  simp only [closedBy, gives_bind, gives_token, gives_pure]
  constructor
  · rintro ⟨_, s₁, h, _, _, ⟨hk, -, rfl⟩, rfl, rfl⟩
    exact ⟨s₁, h, hk, rfl⟩
  · rintro ⟨s₁, h, hk, rfl⟩
    exact ⟨values, s₁, h, _, _, ⟨hk, rfl, rfl⟩, rfl, rfl⟩

/-! ### Items that a separator follows -/

/-- From a stream on, an item that is read does not move back, and no item begins at the
closing token. -/
structure ItemBefore (closer : Kind) (item : Rule α) (s : TokenStream) : Prop where
  forward : ForwardFrom item s
  declines : ∀ {w s₀}, s.Passes w s₀ → s₀.current.kind = closer →
    ∃ g, item.Refuses s₀ g ∧ g.declinesAt s₀ = true

lemma ItemBefore.passes {w : List Token} (h : ItemBefore closer item s) (hp : s.Passes w s₁) :
    ItemBefore closer item s₁ where
  forward := h.forward.passes hp
  declines := fun hq => h.declines (hp.append hq)

/-- The marks are left wherever the item is run, and its outcome is its own. -/
lemma ItemBefore.logged (h : ItemBefore closer item s) (mark : String) :
    ItemBefore closer (logged mark item) s where
  forward := h.forward
  declines := h.declines

/-- Items that a separator follows, from one stream to another: their values, and the
visits paid to them. -/
inductive Kept (separator : Kind) (item : Rule α) :
    TokenStream → List α → List Visit → TokenStream → Prop
  | nil (s : TokenStream) : Kept separator item s [] [] s
  | cons {s s₁ s' : TokenStream} {a : α} {as : List α} {first visits : List Visit}
      (h : item s = ⟨.success a s₁, first⟩) (hk : s₁.current.kind = separator)
      (hs : Kept separator item s₁.advance as visits s') :
      Kept separator item s (a :: as) (first ++ visits) s'

/-- A list keeps items up to the first one that no separator follows. -/
lemma exists_kept (h : ItemBefore closer item s) (hs : s.Ordered) (hsep : separator ≠ .finish) :
    ∃ as visits s' w, Kept separator item s as visits s' ∧ s.Passes w s' ∧
      Unfollowed separator item s' := by
  induction hn : s.ahead.length using Nat.strong_induction_on generalizing s with
  | _ n ih =>
      by_cases hend : Unfollowed separator item s
      · exact ⟨[], [], s, [], .nil s, rfl, hend⟩
      · simp only [Unfollowed, not_forall, not_not] at hend
        obtain ⟨a, s₁, ha, hk⟩ := hend
        obtain ⟨v, hv, hp⟩ := h.forward.passes_separator hs hsep ha hk
        have hlt : s₁.advance.ahead.length < n := by
          rw [← hn, hp.ahead_eq, List.length_append]
          exact Nat.lt_add_of_pos_left (List.length_pos_iff.mpr hv)
        obtain ⟨as, visits, s', w, hkept, hw, hend⟩ := ih _ hlt (h.passes hp) (hs.passes hp) rfl
        have hrun : item s = ⟨.success a s₁, (item s).visits⟩ := by rw [← ha]
        exact ⟨a :: as, _, s', v ++ w, .cons hrun hk hkept, hp.append hw, hend⟩

/-- The items kept come first. -/
lemma onePass_kept {as : List α} {visits : List Visit}
    (hkept : Kept separator item s as visits s') (h : ItemBefore closer item s) (hs : s.Ordered)
    (hsep : separator ≠ .finish) :
    onePass separator item s = prepend as visits (onePass separator item s') := by
  induction hkept with
  | nil s => rw [prepend_nil]
  | @cons s s₁ s' a as first visits hi hk _ ih =>
      have ha : item.Gives s a s₁ := by rw [Gives, hi]
      obtain ⟨w, -, hp⟩ := h.forward.passes_separator hs hsep ha hk
      rw [onePass_cons h.forward hs hsep hi hk, ih (h.passes hp) (hs.passes hp), prepend_prepend,
        List.singleton_append]

lemma gives_onePass_kept {as values : List α} {visits : List Visit} {rest : TokenStream}
    (hkept : Kept separator item s as visits s') (h : ItemBefore closer item s) (hs : s.Ordered)
    (hsep : separator ≠ .finish) :
    (onePass separator item).Gives s values rest ↔
      ∃ bs, values = as ++ bs ∧ (onePass separator item).Gives s' bs rest := by
  rw [Gives, onePass_kept hkept h hs hsep, prepend_success]
  rfl

/-! ### Two branches, item by item -/

lemma followed_run_of_separator {a : α} {first : List Visit}
    (hi : item s = ⟨.success a s₁, first⟩) (hk : s₁.current.kind = separator) :
    optional (followed separator item) s = ⟨.success (some a) s₁.advance, first⟩ := by
  have hrun : followed separator item s = ⟨.success a s₁.advance, first⟩ := by
    rw [followed, bind_run, hi]
    simp [bind_run, token, hk, Run.afterVisits]
  rw [optional, hrun]

lemma followed_run_of_end (hend : Unfollowed separator item s) :
    optional (followed separator item) s = match item s with
      | ⟨.success _ _, visits⟩ => ⟨.success none s, visits⟩
      | ⟨.failure _, visits⟩ => ⟨.success none s, visits⟩
      | ⟨.overlong n, visits⟩ => ⟨.overlong n, visits⟩ := by
  rw [optional, followed, bind_run]
  rcases hi : item s with ⟨⟨a, rest⟩ | g | n, visits⟩
  · have hk := hend a rest (by rw [Gives, hi])
    simp [bind_run, token, hk, Run.afterVisits]
  · rfl
  · rfl

lemma many_followed_run (h : ItemBefore closer item s) (hs : s.Ordered)
    (hsep : separator ≠ .finish) :
    many (optional (followed separator item)) s = (do
      match ← optional (followed separator item) with
      | none => return []
      | some a => return a :: (← many (optional (followed separator item)))) s := by
  refine many_run fun {v s₀ a s₁} hp hround => ?_
  by_cases hend : Unfollowed separator item s₀
  · rw [Gives, followed_run_of_end hend] at hround
    rcases hi : item s₀ with ⟨⟨b, rest⟩ | g | n, visits⟩ <;> simp [hi] at hround
  · simp only [Unfollowed, not_forall, not_not] at hend
    obtain ⟨b, rest, hb, hk⟩ := hend
    have hi : item s₀ = ⟨.success b rest, (item s₀).visits⟩ := by rw [← hb]
    rw [Gives, followed_run_of_separator hi hk] at hround
    obtain ⟨-, rfl⟩ := Outcome.success.inj hround
    exact (h.forward.passes hp).passes_separator (hs.passes hp) hsep hb hk

/-- Behind an item and its separator a list goes on as it begins. -/
lemma twoBranch_cons (h : ItemBefore closer item s) (hs : s.Ordered) (hsep : separator ≠ .finish)
    {a : α} {first : List Visit} (hi : item s = ⟨.success a s₁, first⟩)
    (hk : s₁.current.kind = separator) :
    twoBranchList separator item s =
      prepend [a] first (twoBranchList separator item s₁.advance) := by
  have hkept : many (optional (followed separator item)) s =
      ((do
        let kept ← many (optional (followed separator item))
        return a :: kept) s₁.advance).afterVisits first := by
    rw [many_followed_run h hs hsep, bind_run, followed_run_of_separator hi hk]
  rw [twoBranchList, bind_run, bind_run, hkept, bind_run]
  rcases many (optional (followed separator item)) s₁.advance with ⟨⟨kept, rest⟩ | g | n, own⟩
  · rcases hlast : optional item rest with ⟨⟨_ | last, rest'⟩ | g | n, visits⟩ <;>
      simp [bind_run, hlast, prepend, Run.afterVisits]
  · simp [prepend, Run.afterVisits]
  · simp [prepend, Run.afterVisits]

/-- The items kept come first. -/
lemma twoBranch_kept {as : List α} {visits : List Visit}
    (hkept : Kept separator item s as visits s') (h : ItemBefore closer item s) (hs : s.Ordered)
    (hsep : separator ≠ .finish) :
    twoBranchList separator item s = prepend as visits (twoBranchList separator item s') := by
  induction hkept with
  | nil s => rw [prepend_nil]
  | @cons s s₁ s' a as first visits hi hk _ ih =>
      have ha : item.Gives s a s₁ := by rw [Gives, hi]
      obtain ⟨w, -, hp⟩ := h.forward.passes_separator hs hsep ha hk
      rw [twoBranch_cons h hs hsep hi hk, ih (h.passes hp) (hs.passes hp), prepend_prepend,
        List.singleton_append]

lemma gives_twoBranch_kept {as values : List α} {visits : List Visit} {rest : TokenStream}
    (hkept : Kept separator item s as visits s') (h : ItemBefore closer item s) (hs : s.Ordered)
    (hsep : separator ≠ .finish) :
    (twoBranchList separator item).Gives s values rest ↔
      ∃ bs, values = as ++ bs ∧ (twoBranchList separator item).Gives s' bs rest := by
  rw [Gives, twoBranch_kept hkept h hs hsep, prepend_success]
  rfl

/-- In front of the last item, or of none, the item is run twice, and a failure counts as a
missing item, whatever it is. -/
lemma twoBranch_end (h : ItemBefore closer item s) (hs : s.Ordered) (hsep : separator ≠ .finish)
    (hend : Unfollowed separator item s) :
    twoBranchList separator item s = match item s with
      | ⟨.success a rest, visits⟩ => ⟨.success [a] rest, visits ++ visits⟩
      | ⟨.failure _, visits⟩ => ⟨.success [] s, visits ++ visits⟩
      | ⟨.overlong n, visits⟩ => ⟨.overlong n, visits⟩ := by
  rw [twoBranchList, bind_run, many_followed_run h hs hsep, bind_run, followed_run_of_end hend]
  rcases hi : item s with ⟨⟨a, rest⟩ | g | n, visits⟩
  · simp [bind_run, optional, hi, Run.afterVisits]
  · simp [bind_run, optional, hi, Run.afterVisits]
  · rfl

/-! ### Values -/

/-- In front of the closing token an item is refused for good, so that no other failure is
ever passed over there. -/
lemma gives_closed_end {values : List α} (h : ItemBefore closer item s) (hs : s.Ordered)
    (hsep : separator ≠ .finish) (hend : Unfollowed separator item s) :
    (∃ s₁, (onePass separator item).Gives s values s₁ ∧ s₁.current.kind = closer ∧
        s' = s₁.advance) ↔
      ∃ s₁, (twoBranchList separator item).Gives s values s₁ ∧ s₁.current.kind = closer ∧
        s' = s₁.advance := by
  simp only [Gives, onePass_end h.forward hs hsep hend, twoBranch_end h hs hsep hend]
  rcases hi : item s with ⟨⟨a, rest⟩ | g | n, visits⟩
  · rfl
  · by_cases hg : g.declinesAt s = true
    · simp [hg]
    · simp only [hg, if_false, reduceCtorEq, false_and, exists_false, false_iff]
      rintro ⟨s₁, h₁, hk, -⟩
      obtain ⟨-, rfl⟩ := Outcome.success.inj h₁
      obtain ⟨g', hg', hdecl⟩ := h.declines (TokenStream.passes_nil_iff.mpr rfl) hk
      rw [Refuses, hi] at hg'
      rw [Outcome.failure.inj hg'] at hg
      exact hg hdecl
  · rfl

/-! ### Calls -/

/-- In front of the last item, or of none, a list runs it once, whatever comes of it. -/
lemma onePass_logged_end (h : ItemBefore closer item s) (hs : s.Ordered)
    (hsep : separator ≠ .finish) (hend : Unfollowed separator item s) (mark : String) :
    (onePass separator (logged mark item) s).visits = [⟨mark, s.index⟩] := by
  rw [onePass_end (h.logged mark).forward hs hsep hend, logged]
  rcases (item s).outcome with ⟨a, rest⟩ | g | n
  · rfl
  · by_cases hg : g.declinesAt s <;> simp [hg]
  · rfl

/-- Where the list in one pass succeeds in front of its last item, or of none, the list in
two branches runs it twice. -/
lemma twoBranch_logged_end (h : ItemBefore closer item s) (hs : s.Ordered)
    (hsep : separator ≠ .finish) (hend : Unfollowed separator item s) (mark : String)
    {values : List α} (hgives : (onePass separator item).Gives s values s') :
    values.length ≤ 1 ∧ (twoBranchList separator (logged mark item) s).visits =
      [⟨mark, s.index⟩, ⟨mark, s.index⟩] := by
  rw [Gives, onePass_end h.forward hs hsep hend] at hgives
  rw [twoBranch_end (h.logged mark) hs hsep hend, logged]
  rcases hi : item s with ⟨⟨a, rest⟩ | g | n, visits⟩
  · rw [hi] at hgives
    obtain ⟨rfl, -⟩ := Outcome.success.inj hgives
    exact ⟨le_rfl, rfl⟩
  · rw [hi] at hgives
    by_cases hg : g.declinesAt s = true
    · simp only [hg, if_true] at hgives
      obtain ⟨rfl, -⟩ := Outcome.success.inj hgives
      exact ⟨Nat.zero_le _, rfl⟩
    · simp [hg] at hgives
  · rw [hi] at hgives
    cases hgives

/-- Each item kept was run once, one behind another and in front of the last place. -/
lemma Kept.logged {as : List α} {visits : List Visit} (hkept : Kept separator item s as visits s')
    (h : ItemBefore closer item s) (hs : s.Ordered) (hsep : separator ≠ .finish) (mark : String) :
    ∃ calls : List ℕ, Kept separator (logged mark item) s as (calls.map (Visit.mk mark)) s' ∧
      calls.length = as.length ∧ (calls ++ [s'.index]).Pairwise (· < ·) ∧
      ∀ i ∈ calls ++ [s'.index], s.index ≤ i := by
  induction hkept with
  | nil s => exact ⟨[], .nil s, rfl, by simp, by simp⟩
  | @cons s s₁ s' a as first visits hi hk _ ih =>
      have ha : item.Gives s a s₁ := by rw [Gives, hi]
      obtain ⟨w, hw, hp⟩ := h.forward.passes_separator hs hsep ha hk
      have hlt : s.index < s₁.advance.index := by
        rw [hp.index_eq]
        exact Nat.lt_add_of_pos_right (List.length_pos_iff.mpr hw)
      obtain ⟨calls, hkept, hlen, hpair, hle⟩ := ih (h.passes hp) (hs.passes hp)
      have hrun : Rule.logged mark item s = ⟨.success a s₁, [⟨mark, s.index⟩]⟩ := by
        rw [Rule.logged, hi]
      refine ⟨s.index :: calls, .cons hrun hk hkept, by simp [hlen], ?_, ?_⟩
      · exact List.pairwise_cons.mpr ⟨fun i hi => hlt.trans_le (hle i hi), hpair⟩
      · exact List.forall_mem_cons.mpr ⟨le_rfl, fun i hi => hlt.le.trans (hle i hi)⟩

/-- A list read in one pass against a list read in two branches, from a stream on. -/
structure ReadsAsTwoBranches (separator closer : Kind) (item : Rule α) (s : TokenStream) :
    Prop where
  /-- With the closing token they succeed with the same values and the same tokens read. -/
  gives_iff : ∀ name expected opener values rest,
    (closedBy closer expected opener (separatedList name ⟨true, true⟩ separator item)).Gives
        s values rest ↔
      (closedBy closer expected opener (twoBranchList separator item)).Gives s values rest
  /-- In one pass the item is run at places that grow from call to call, and where the list
  succeeds once for each value and at most once more. In two branches it is then run at the
  same places, and once more at the last of them. -/
  calls : ∀ name mark, ∃ calls : List ℕ, calls.Pairwise (· < ·) ∧
    (separatedList name ⟨true, true⟩ separator (logged mark item) s).visits =
      ⟨name, s.index⟩ :: calls.map (Visit.mk mark) ∧
    ∀ values rest, (separatedList name ⟨true, true⟩ separator item).Gives s values rest →
      (calls.length = values.length ∨ calls.length = values.length + 1) ∧
      ∃ last ∈ calls.getLast?, (twoBranchList separator (logged mark item) s).visits =
        (calls ++ [last]).map (Visit.mk mark)

/-- Expressions are such items, in front of a token that begins none. -/
lemma itemBefore_expr (limit : ℤ) (n : ℕ) (hs : s.Ordered)
    (hcloser : closer.startsOperand = false) : ItemBefore closer (Parser.expr limit n) s where
  forward := fun _ s₀ e s₁ hp h => by
    obtain ⟨w, hw, -⟩ := (Parser.reads_expr limit n).sound (hs.passes hp) h
    exact ⟨w, hw⟩
  declines := fun hp hk =>
    ((Parser.inner_ofRoom limit (n + 1)).declines n rfl).exists_declinesAt (hs.passes hp)
      (by rw [hk, hcloser])

end Rule

open Rule in
/-- **In front of its closing token a list read in one pass is the list read in two
branches**, for any items that do not move back and of which none begins there; and it
runs its item at no place twice. -/
theorem separatedList_eq_twoBranchList {α : Type} {source : String} {tokens : Tokens}
    (ht : tokenize source = .ok tokens) {passed : List Token} {s : TokenStream}
    (hp : (TokenStream.ofTokens tokens).Passes passed s) {item : Rule α}
    {separator closer : Kind} (hitem : ItemBefore closer item s) (hsep : separator ≠ .finish) :
    ReadsAsTwoBranches separator closer item s := by
  have hs := (tokenize_ordered ht).passes hp
  obtain ⟨as, visits, s', w, hkept, hw, hend⟩ := exists_kept hitem hs hsep
  have hitem' := hitem.passes hw
  have hs' := hs.passes hw
  constructor
  case gives_iff =>
    intro name expected opener values rest
    simp only [gives_closedBy, gives_separatedList, gives_onePass_kept hkept hitem hs hsep,
      gives_twoBranch_kept hkept hitem hs hsep]
    constructor
    · rintro ⟨s₁, ⟨bs, rfl, hbs⟩, hk⟩
      obtain ⟨s₂, hbs, hk⟩ := (gives_closed_end hitem' hs' hsep hend).mp ⟨s₁, hbs, hk⟩
      exact ⟨s₂, ⟨bs, rfl, hbs⟩, hk⟩
    · rintro ⟨s₁, ⟨bs, rfl, hbs⟩, hk⟩
      obtain ⟨s₂, hbs, hk⟩ := (gives_closed_end hitem' hs' hsep hend).mpr ⟨s₁, hbs, hk⟩
      exact ⟨s₂, ⟨bs, rfl, hbs⟩, hk⟩
  case calls =>
    intro name mark
    obtain ⟨calls, hlogged, hlen, hpair, -⟩ := hkept.logged hitem hs hsep mark
    refine ⟨calls ++ [s'.index], hpair, ?_, fun values rest hgives => ?_⟩
    · rw [separatedList_run, Run.afterVisits, Run.joinVisits_eq,
        onePass_kept hlogged (hitem.logged mark) hs hsep, prepend_visits,
        onePass_logged_end hitem' hs' hsep hend]
      simp
    · obtain ⟨bs, rfl, hbs⟩ := (gives_onePass_kept hkept hitem hs hsep).mp hgives
      obtain ⟨hle, hvisits⟩ := twoBranch_logged_end hitem' hs' hsep hend mark hbs
      refine ⟨?_, s'.index, by simp, ?_⟩
      · simp only [List.length_append, List.length_singleton, hlen]
        omega
      · rw [twoBranch_kept hlogged (hitem.logged mark) hs hsep, prepend_visits, hvisits]
        simp

open Rule in
/-- The theorem at the source `f(x, [y],)`, for the arguments behind the first two
tokens. -/
theorem separatedList_eq_twoBranchList_arguments :
    ∃ tokens s, tokenize "f(x, [y],)" = .ok tokens ∧
      (TokenStream.ofTokens tokens).Passes (tokens.items.take 2) s ∧
      ReadsAsTwoBranches .comma .closeParen (Parser.expr 2 1) s := by
  have ht : tokenize "f(x, [y],)" = .ok ⟨[⟨.name, some "f", ⟨0, 1, 1⟩, 1⟩,
      ⟨.openParen, some "(", ⟨1, 1, 2⟩, 2⟩, ⟨.name, some "x", ⟨2, 1, 3⟩, 3⟩,
      ⟨.comma, some ",", ⟨3, 1, 4⟩, 4⟩, ⟨.openBracket, some "[", ⟨5, 1, 6⟩, 6⟩,
      ⟨.name, some "y", ⟨6, 1, 7⟩, 7⟩, ⟨.closeBracket, some "]", ⟨7, 1, 8⟩, 8⟩,
      ⟨.comma, some ",", ⟨8, 1, 9⟩, 9⟩, ⟨.closeParen, some ")", ⟨9, 1, 10⟩, 10⟩],
      ⟨.finish, none, ⟨10, 1, 11⟩, 10⟩⟩ := rfl
  obtain ⟨s, hp, -⟩ := TokenStream.exists_passes (s := .ofTokens _)
    (List.take_append_drop 2 _).symm
  exact ⟨_, s, ht, hp, separatedList_eq_twoBranchList ht hp
    (itemBefore_expr 2 1 ((tokenize_ordered ht).passes hp) rfl) (by simp)⟩

end ArrayExpr
