/-
Visits paid once.

* `Run.Frugal`: a run pays no visit twice; its visits lie between the tokens
  where it starts and where it ends;
* `Rule.Frugal`: all runs of a rule are frugal;
* `Frugal.bind`: of two rules in a row the second one must visit behind the
  visits of the first, as it does if the first one reads a token
  (`Frugal.bind_read`);
* `Frugal.visited`, `Frugal.attempt`, `frugal_collect` and those after them: the
  same for the other ways to make rules from rules.

A rule that fails in front of its first token has visited nothing else, so
that another rule can be tried there.
-/
import ArrayExpr.Proofs.Rule.Outcome
import ArrayExpr.Parser.Scope

namespace ArrayExpr

/-- A run in front of `s` that pays no visit twice. Its visits stand at least
`skip` tokens behind `s`, and those in front of the first token are to the
rules `names`. If it succeeds, it reads at least `least` tokens and its visits
stand before the stream where it ends, or at most in front of it if `peek` is
one. If another rule may be tried, it has not gone back, and has visited
nothing behind the first token unless it failed there. -/
structure Run.Frugal {α : Type} (run : Run α) (s : TokenStream) (names : List String)
    (skip peek least : ℕ) : Prop where
  nodup : run.visits.Nodup
  within : ∀ v ∈ run.visits, s.index + skip ≤ v.index ∧ v.index ≤ s.index + s.ahead.length
  named : ∀ v ∈ run.visits, v.index = s.index → v.rule ∈ names
  success : ∀ {a rest}, run.outcome = .success a rest →
    ∃ w, s.Passes w rest ∧ least ≤ w.length ∧ ∀ v ∈ run.visits, v.index < rest.index + peek
  failure : ∀ {g}, run.outcome = .failure g → g.isRecoverable = true →
    s.offset ≤ g.offset ∧ (g.offset = s.offset → ∀ v ∈ run.visits, v.index = s.index)

/-- All runs of a rule are frugal. -/
def Rule.Frugal {α : Type} (r : Rule α) (names : List String) (skip peek least : ℕ) : Prop :=
  ∀ s : TokenStream, s.Ordered → (r s).Frugal s names skip peek least

namespace Run

variable {α β : Type} {run : Run α} {s : TokenStream} {names names' : List String}
  {skip skip' peek peek' least least' : ℕ} {visits : List Visit}

lemma Frugal.weaken (h : run.Frugal s names skip peek least) (hn : names ⊆ names')
    (hs : skip' ≤ skip) (hp : peek ≤ peek') (hl : least' ≤ least) :
    run.Frugal s names' skip' peek' least' where
  nodup := h.nodup
  within := fun v hv => ⟨(Nat.add_le_add_left hs _).trans (h.within v hv).1, (h.within v hv).2⟩
  named := fun v hv hi => hn (h.named v hv hi)
  success := fun ho => by
    obtain ⟨w, hw, hlen, hlt⟩ := h.success ho
    exact ⟨w, hw, hl.trans hlen, fun v hv => (hlt v hv).trans_le (Nat.add_le_add_left hp _)⟩
  failure := h.failure

lemma Frugal.allow (h : run.Frugal s names skip peek least) (hn : names ⊆ names') :
    run.Frugal s names' skip peek least :=
  h.weaken hn (Nat.le_refl skip) (Nat.le_refl peek) (Nat.le_refl least)

lemma Frugal.any_least (h : run.Frugal s names skip peek least) :
    run.Frugal s names skip peek 0 :=
  h.weaken (List.Subset.refl names) (Nat.le_refl skip) (Nat.le_refl peek) (Nat.zero_le least)

/-- A run without visits. -/
lemma frugal_of_visits_nil (hv : run.visits = [])
    (hsuccess : ∀ a rest, run.outcome = .success a rest → ∃ w, s.Passes w rest ∧ least ≤ w.length)
    (hfailure : ∀ g, run.outcome = .failure g → g.isRecoverable = true → s.offset ≤ g.offset) :
    run.Frugal s names skip peek least where
  nodup := by simp [hv]
  within := by simp [hv]
  named := by simp [hv]
  success := fun ho => by
    obtain ⟨w, hw, hlen⟩ := hsuccess _ _ ho
    exact ⟨w, hw, hlen, by simp [hv]⟩
  failure := fun ho hg => ⟨hfailure _ ho hg, by simp [hv]⟩

/-- A run that fails may be one of any rule. -/
lemma Frugal.of_failure {g : Failure}
    (h : (⟨.failure g, visits⟩ : Run α).Frugal s names skip peek least) :
    (⟨.failure g, visits⟩ : Run β).Frugal s names skip peek' least' where
  nodup := h.nodup
  within := h.within
  named := h.named
  success := fun ho => by cases ho
  failure := fun ho => by
    cases ho
    exact h.failure rfl

lemma Frugal.of_overlong {n : ℕ}
    (h : (⟨.overlong n, visits⟩ : Run α).Frugal s names skip peek least) :
    (⟨.overlong n, visits⟩ : Run β).Frugal s names skip peek' least' where
  nodup := h.nodup
  within := h.within
  named := h.named
  success := fun ho => by cases ho
  failure := fun ho => by cases ho

end Run

namespace Rule

variable {α β σ : Type} {r : Rule α} {f : α → Rule β} {names names₂ : List String}
  {skip skip' skip₂ peek peek' peek₂ least least' least₂ : ℕ}

/-- What a rule visits and reads may be said less exactly: that it may visit in
front of the token ahead, -/
lemma Frugal.any_skip (h : r.Frugal names skip peek least) : r.Frugal names 0 peek least :=
  fun s hs => (h s hs).weaken (List.Subset.refl names) (Nat.zero_le skip) (Nat.le_refl peek)
    (Nat.le_refl least)

/-- that it may visit in front of the stream where it ends, -/
lemma Frugal.any_peek (h : r.Frugal names skip 0 least) : r.Frugal names skip peek least :=
  fun s hs => (h s hs).weaken (List.Subset.refl names) (Nat.le_refl skip) (Nat.zero_le peek)
    (Nat.le_refl least)

/-- and that it may read nothing. -/
lemma Frugal.any_least (h : r.Frugal names skip peek least) : r.Frugal names skip peek 0 :=
  fun s hs => (h s hs).any_least

/-! ### Rules in a row -/

/-- **Rules in a row**, in front of one stream. The second rule visits behind
the visits of the first, and in front of the first token only rules that are
allowed there. -/
lemma frugal_bind_run {s : TokenStream} (hs : s.Ordered)
    (h : (r s).Frugal s names skip peek least) (hf : ∀ a, (f a).Frugal names₂ skip₂ peek₂ least₂)
    (hpeek : peek ≤ 1) (hskip₂ : peek ≤ skip₂) (hskip : skip ≤ least + skip₂)
    (hpeek₂ : peek ≤ least₂ + peek₂) (hnames : 0 < least + skip₂ ∨ names₂ ⊆ names) :
    ((r >>= f) s).Frugal s names skip peek₂ (least + least₂) := by
  rw [bind_run]
  generalize r s = run at h
  obtain ⟨outcome, visits⟩ := run
  cases outcome with
  | failure g => exact h.of_failure
  | overlong n => exact h.of_overlong
  | success a rest =>
      obtain ⟨w, hw, hlen, hbefore⟩ := h.success rfl
      have h₂ := hf a rest (hs.passes hw)
      have hindex := hw.index_eq
      have hahead := congrArg List.length hw.ahead_eq
      rw [List.length_append] at hahead
      dsimp only
      generalize f a rest = run₂ at h₂
      obtain ⟨outcome₂, visits₂⟩ := run₂
      simp only [Run.afterVisits, Run.joinVisits_eq]
      dsimp only at h hbefore
      refine ⟨?nodup, ?within, ?named, fun {b rest₂} ho => ?succeeds, fun {g} ho hg => ?fails⟩
      case nodup =>
        -- The first rule visits below `rest.index + peek`, the second from `rest.index + skip₂`.
        refine List.nodup_append.mpr ⟨h.nodup, h₂.nodup, fun v hv v₂ hv₂ heq => ?_⟩
        have h1 := hbefore v hv
        have h2 := (h₂.within v₂ hv₂).1
        rw [heq] at h1
        omega
      case within =>
        intro v hv
        rcases List.mem_append.mp hv with hv | hv
        · exact h.within v hv
        · have := h₂.within v hv
          omega
      case named =>
        intro v hv hi
        rcases List.mem_append.mp hv with hv | hv
        · exact h.named v hv hi
        · have := h₂.within v hv
          exact (hnames.resolve_left (by omega)) (h₂.named v hv (by omega))
      case succeeds =>
        obtain ⟨w₂, hw₂, hlen₂, hbefore₂⟩ := h₂.success ho
        have hindex₂ := hw₂.index_eq
        refine ⟨w ++ w₂, hw.append hw₂, by rw [List.length_append]; omega, fun v hv => ?_⟩
        rcases List.mem_append.mp hv with hv | hv
        · have := hbefore v hv
          omega
        · exact hbefore₂ v hv
      case fails =>
        obtain ⟨hle, hat⟩ := h₂.failure ho hg
        have hle' := hs.offset_le hw
        refine ⟨hle'.trans hle, fun heq v hv => ?_⟩
        -- A failure at the first token means that the first rule has read nothing.
        obtain rfl : w = [] := (hs.offset_eq_iff hw).mp (by omega)
        rw [List.length_nil] at hindex
        rcases List.mem_append.mp hv with hv | hv
        · have h1 := hbefore v hv
          have h2 := h.within v hv
          omega
        · rw [hat (by omega) v hv, hindex, Nat.add_zero]

/-- **Rules in a row.** -/
lemma Frugal.bind (hr : r.Frugal names skip peek least)
    (hf : ∀ a, (f a).Frugal names₂ skip₂ peek₂ least₂) (hpeek : peek ≤ 1) (hskip₂ : peek ≤ skip₂)
    (hskip : skip ≤ least + skip₂) (hpeek₂ : peek ≤ least₂ + peek₂)
    (hnames : 0 < least + skip₂ ∨ names₂ ⊆ names) :
    (r >>= f).Frugal names skip peek₂ (least + least₂) :=
  fun s hs => frugal_bind_run hs (hr s hs) hf hpeek hskip₂ hskip hpeek₂ hnames

/-- A run that reads a token keeps its visits apart from those of any rule
behind it. -/
lemma frugal_bind_read {s : TokenStream} (hs : s.Ordered) (h : (r s).Frugal s names skip 0 1)
    (hf : ∀ a, (f a).Frugal names₂ 0 peek₂ least₂) (hskip : skip ≤ 1) :
    ((r >>= f) s).Frugal s names skip peek₂ 1 :=
  (frugal_bind_run hs h hf (Nat.zero_le 1) (Nat.le_refl 0) hskip (Nat.zero_le _)
    (.inl Nat.one_pos)).weaken (List.Subset.refl names) (Nat.le_refl skip) (Nat.le_refl peek₂)
      (Nat.le_add_right 1 least₂)

lemma Frugal.bind_read (hr : r.Frugal names skip 0 1)
    (hf : ∀ a, (f a).Frugal names₂ 0 peek₂ least₂) (hskip : skip ≤ 1) :
    (r >>= f).Frugal names skip peek₂ 1 :=
  fun s hs => frugal_bind_read hs (hr s hs) hf hskip

/-- A last step that reads and visits nothing. -/
lemma Frugal.bind_pure {k : α → β} (hr : r.Frugal names skip peek least) :
    (r >>= fun a => pure (k a)).Frugal names skip peek least := by
  intro s hs
  have h := hr s hs
  rw [bind_run]
  generalize r s = run at h
  obtain ⟨outcome, visits⟩ := run
  cases outcome with
  | failure g => exact h.of_failure
  | overlong n => exact h.of_overlong
  | success a rest =>
      obtain ⟨w, hw, hlen, hbefore⟩ := h.success rfl
      refine ⟨h.nodup, h.within, h.named, fun ho => ?_, fun ho => by cases ho⟩
      cases ho
      exact ⟨w, hw, hlen, hbefore⟩

/-! ### Single steps -/

lemma frugal_pure (a : α) : (pure a : Rule α).Frugal names skip peek 0 :=
  fun _ _ => Run.frugal_of_visits_nil rfl
    (fun _ _ ho => by cases ho; exact ⟨[], rfl, Nat.le_refl _⟩) fun _ ho => by cases ho

lemma frugal_stream : stream.Frugal names skip peek 0 :=
  fun _ _ => Run.frugal_of_visits_nil rfl
    (fun _ _ ho => by cases ho; exact ⟨[], rfl, Nat.le_refl _⟩) fun _ ho => by cases ho

lemma frugal_advance : advance.Frugal names skip peek 0 := by
  refine fun s _ => Run.frugal_of_visits_nil rfl (fun _ _ ho => ?_) fun _ ho => by cases ho
  cases ho
  obtain ⟨w, hw⟩ := s.exists_passes_advance
  exact ⟨w, hw, Nat.zero_le _⟩

/-- Moving on from a proper token reads it. -/
lemma frugal_advance_of_kind {s : TokenStream} (hs : s.Ordered) (hk : s.current.kind ≠ .finish) :
    (advance s).Frugal s names skip peek 1 :=
  Run.frugal_of_visits_nil rfl
    (fun _ _ ho => by
      cases ho
      exact ⟨_, TokenStream.passes_one (hs.peek_current hk), Nat.le_refl _⟩)
    fun _ ho => by cases ho

/-- A failure after which another rule may be tried must not go back. -/
lemma frugal_fail {e : TokenStream → Failure}
    (h : ∀ s, (e s).isRecoverable = true → s.offset ≤ (e s).offset) :
    (fail e : Rule α).Frugal names skip peek least :=
  fun s _ => Run.frugal_of_visits_nil rfl (fun _ _ ho => by cases ho)
    fun _ ho hg => by cases ho; exact h s hg

lemma frugal_overlong (n : ℕ) : (Rule.overlong n : Rule α).Frugal names skip peek least :=
  fun _ _ => Run.frugal_of_visits_nil rfl (fun _ _ ho => by cases ho) fun _ ho => by cases ho

lemma frugal_token {kind : Kind} (hk : kind ≠ .finish) (what : Option String)
    (opener : Option Token) : (token kind what opener).Frugal names skip peek 1 := by
  intro s hs
  have hvisits : (token kind what opener s).visits = [] := by
    cases opener <;> simp only [token] <;> split_ifs <;> rfl
  refine Run.frugal_of_visits_nil hvisits (fun a rest ho => ?_) fun g ho _ => ?_
  · obtain ⟨hkind, rfl, rfl⟩ := gives_token.mp ho
    exact ⟨_, TokenStream.passes_one (hs.peek_current (hkind ▸ hk)), Nat.le_refl _⟩
  · cases opener with
    | none =>
        obtain ⟨-, e, rfl⟩ := refuses_token ho
        exact Nat.le_refl _
    | some opener =>
        obtain ⟨-, e, rfl⟩ := refuses_token_closing ho
        split_ifs <;> exact Nat.le_refl _

/-- A rule that looks at the token ahead first. -/
lemma frugal_current {f : Token → Rule α}
    (h : ∀ s, s.Ordered → (f s.current s).Frugal s names skip peek least) :
    (current >>= f).Frugal names skip peek least := by
  intro s hs
  rw [bind_current_run]
  exact h s hs

/-- A visit in front of a rule that visits only others there. -/
lemma Frugal.visited {name : String} (h : r.Frugal names 0 peek least) (hname : name ∉ names)
    (hl : 0 < least + peek) : (visit name >>= fun _ => r).Frugal (name :: names) 0 peek least := by
  intro s hs
  have hr := h s hs
  have hrun : (visit name >>= fun _ => r) s = (r s).afterVisits [⟨name, s.index⟩] := rfl
  rw [hrun]
  generalize r s = run at hr
  obtain ⟨outcome, visits⟩ := run
  simp only [Run.afterVisits, Run.joinVisits_eq, List.singleton_append]
  refine ⟨?nodup, ?within, ?named, fun {a rest} ho => ?succeeds, fun {g} ho hg => ?fails⟩
  case nodup => exact List.nodup_cons.mpr ⟨fun hv => hname (hr.named _ hv rfl), hr.nodup⟩
  case within => exact List.forall_mem_cons.mpr ⟨⟨Nat.le_refl _, Nat.le_add_right _ _⟩, hr.within⟩
  case named =>
    exact List.forall_mem_cons.mpr ⟨fun _ => List.mem_cons_self,
      fun v hv hi => List.mem_cons_of_mem _ (hr.named v hv hi)⟩
  case succeeds =>
    obtain ⟨w, hw, hlen, hlt⟩ := hr.success ho
    have hindex := hw.index_eq
    exact ⟨w, hw, hlen, List.forall_mem_cons.mpr ⟨by dsimp only; omega, hlt⟩⟩
  case fails =>
    obtain ⟨hle, hat⟩ := hr.failure ho hg
    exact ⟨hle, fun heq => List.forall_mem_cons.mpr ⟨rfl, hat heq⟩⟩

/-! ### Rules from rules -/

/-- A rule that may be missing has visited nothing behind the token ahead when
it is. -/
lemma Frugal.attempt (h : r.Frugal names skip peek least) (hpeek : peek ≤ 1) :
    (attempt r).Frugal names skip 1 0 := by
  intro s hs
  have hr := h s hs
  rw [Rule.attempt]
  generalize r s = run at hr
  obtain ⟨outcome, visits⟩ := run
  cases outcome with
  | overlong n => exact hr.of_overlong
  | success a rest =>
      refine ⟨hr.nodup, hr.within, hr.named, fun ho => ?_, fun ho => by cases ho⟩
      cases ho
      obtain ⟨w, hw, -, hlt⟩ := hr.success rfl
      exact ⟨w, hw, Nat.zero_le _, fun v hv => (hlt v hv).trans_le (Nat.add_le_add_left hpeek _)⟩
  | failure g =>
      dsimp only
      split_ifs with hd
      · rw [Failure.declinesAt, Bool.and_eq_true, decide_eq_true_eq] at hd
        refine ⟨hr.nodup, hr.within, hr.named, fun ho => ?_, fun ho => by cases ho⟩
        cases ho
        refine ⟨[], rfl, Nat.le_refl _, fun v hv => ?_⟩
        rw [(hr.failure rfl hd.1).2 hd.2 v hv]
        exact Nat.lt_succ_self _
      · exact hr.of_failure

lemma Frugal.called (h : r.Frugal names skip peek least) (what : String) :
    (called what r).Frugal names skip peek least := by
  intro s hs
  have hr := h s hs
  rw [Rule.called]
  generalize r s = run at hr
  obtain ⟨outcome, visits⟩ := run
  cases outcome with
  | success a rest => exact hr
  | overlong n => exact hr
  | failure g =>
      dsimp only
      split_ifs with hd
      · rw [Failure.declinesAt, Bool.and_eq_true, decide_eq_true_eq] at hd
        refine ⟨hr.nodup, hr.within, hr.named, fun ho => (by cases ho), fun ho _ => ?_⟩
        cases ho
        exact ⟨Nat.le_refl _, fun _ => (hr.failure rfl hd.1).2 hd.2⟩
      · exact hr

lemma Frugal.spanned (h : r.Frugal names skip peek least) :
    (spanned r).Frugal names skip peek least := by
  intro s hs
  have hr := h s hs
  simp only [Rule.spanned, bind_run, stream, pure_run, Run.afterVisits, Run.joinVisits_eq,
    List.nil_append, List.append_nil]
  generalize r s = run at hr
  obtain ⟨outcome, visits⟩ := run
  cases outcome with
  | failure g => exact hr.of_failure
  | overlong n => exact hr.of_overlong
  | success a rest =>
      obtain ⟨w, hw, hlen, hlt⟩ := hr.success rfl
      refine ⟨hr.nodup, hr.within, hr.named, fun ho => ?_, fun ho => by cases ho⟩
      cases ho
      exact ⟨w, hw, hlen, hlt⟩

/-! ### Repetition -/

/-- Each round visits behind the visits of the rounds before it. -/
lemma frugal_collectWithin {step : σ → Rule (Option (β × σ))}
    (h : ∀ state, (step state).Frugal names skip skip 0) (hskip : skip ≤ 1) (fuel : List Token)
    (state : σ) : (collectWithin step fuel state).Frugal names skip skip 0 := by
  induction fuel generalizing state with
  | nil =>
      rw [collectWithin]
      refine (h state).bind (fun next => (?_ : Rule.Frugal _ names skip skip 0)) hskip
        (Nat.le_refl skip) (by omega) (by omega) (.inr (List.Subset.refl names))
      rcases next with _ | ⟨b, next⟩ <;> exact frugal_pure _
  | cons t fuel ih =>
      rw [collectWithin]
      refine (h state).bind (fun next => (?_ : Rule.Frugal _ names skip skip 0)) hskip
        (Nat.le_refl skip) (by omega) (by omega) (.inr (List.Subset.refl names))
      rcases next with _ | ⟨b, next⟩
      · exact frugal_pure _
      · exact (ih next).bind_pure

lemma frugal_collect {step : σ → Rule (Option (β × σ))}
    (h : ∀ state, (step state).Frugal names skip skip 0) (hskip : skip ≤ 1) (state : σ) :
    (collect step state).Frugal names skip skip 0 :=
  fun s hs => frugal_collectWithin h hskip s.ahead state s hs

lemma Frugal.many {step : Rule (Option β)} (h : step.Frugal names skip skip 0)
    (hskip : skip ≤ 1) : (many step).Frugal names skip skip 0 :=
  frugal_collect (fun _ => h.bind_pure) hskip ()

/-! ### Lists -/

/-- The least number of tokens of a part that may be missing. -/
def leastOf (may : Bool) : ℕ := if may then 0 else 1

lemma Frugal.itemWhere (h : r.Frugal names 0 1 1) (may : Bool) :
    (itemWhere may r).Frugal names 0 1 (leastOf may) := by
  cases may with
  | true => exact h.attempt (Nat.le_refl 1)
  | false => exact h.bind_pure

lemma Frugal.furtherItem {separator : Kind} (h : r.Frugal names 0 1 1) (style : ListStyle)
    (hsep : separator ≠ .finish) : (furtherItem style separator r).Frugal [] 1 1 0 := by
  refine frugal_current fun s hs => ?_
  split_ifs with hk
  · have hadvance : (advance s).Frugal s [] 1 0 1 := frugal_advance_of_kind hs (hk ▸ hsep)
    exact (frugal_bind_read hs hadvance (fun _ => h.itemWhere style.trailing)
      (Nat.le_refl 1)).any_least
  · exact frugal_pure _ s hs

lemma Frugal.separatedList {name : String} {separator : Kind} (h : r.Frugal names 0 1 1)
    (style : ListStyle) (hname : name ∉ names) (hsep : separator ≠ .finish) :
    (separatedList name style separator r).Frugal (name :: names) 0 1 (leastOf style.empty) := by
  refine Frugal.visited ?_ hname (Nat.succ_pos _)
  refine (h.itemWhere style.empty).bind (fun first => (?_ : Rule.Frugal _ [] 1 1 0))
    (Nat.le_refl 1) (Nat.le_refl 1) (Nat.zero_le _) (Nat.le_refl 1) (.inr (List.nil_subset names))
  cases first with
  | none => exact frugal_pure _
  | some first => exact ((h.furtherItem style hsep).many (Nat.le_refl 1)).bind_pure

end Rule

end ArrayExpr
