import GrammarTrace.Proofs.Limit

/-!
# Grammars without left recursion

A search for a derivation replaces the nonterminal in front until input is read, and that goes on
forever only if a nonterminal comes to the front of its own derivation. In a grammar where no
nonterminal does so, every search with a limit that is large enough decides its input
(`Grammar.searchDerivation_answers`).
-/

namespace GrammarTrace

/-- Whether a nonterminal derives the empty text. -/
def Grammar.IsNullable (g : Grammar) (name : String) : Prop := g.Derives .run [.nonterminal name] []

/-- Whether a form is made of nonterminals that derive the empty text. -/
def Grammar.Vanishes (g : Grammar) (form : Form) : Prop :=
  ∀ symbol ∈ form, ∃ name, symbol = .nonterminal name ∧ g.IsNullable name

/-- Whether a nonterminal has an alternative in which nothing stands before another one but
nonterminals that derive the empty text. -/
def Grammar.LeftCorner (g : Grammar) (name corner : String) : Prop :=
  ∃ (p : Production) (before after : Form), g.HasProduction name p ∧
    p.runs = before ++ .nonterminal corner :: after ∧ g.Vanishes before

/-- Whether a nonterminal comes to the front of what it derives. -/
def Grammar.IsLeftRecursive (g : Grammar) (name : String) : Prop :=
  Relation.TransGen g.LeftCorner name name

/-- The nonterminals that stand before all terminals of a form. -/
def Form.leading (form : Form) : List String :=
  Form.nonterminals (form.takeWhile Symbol.isNonterminal)

variable {g : Grammar} {name : String} {p : Production} {before after rest form : Form}
  {unread : List Char} {input : String} {limit : Nat}

/-! ### Nullable nonterminals -/

lemma Grammar.Vanishes.derives (h : g.Vanishes form) : g.Derives .run form [] := by
  induction form with
  | nil => exact .refl
  | cons symbol rest ih =>
    obtain ⟨⟨name, rfl, hname⟩, hrest⟩ := List.forall_mem_cons.mp h
    have hfirst : g.Derives .run ([] ++ [.nonterminal name] ++ rest) ([] ++ [] ++ rest) :=
      hname.context [] rest
    exact hfirst.trans (ih hrest)

/-- A nonterminal is nullable if one of its alternatives is made of nullable nonterminals. -/
lemma Grammar.isNullable_of_vanishes (hp : g.HasProduction name p) (h : g.Vanishes p.runs) :
    g.IsNullable name :=
  .head hp.rewrites h.derives

lemma Grammar.wellFounded_leftCorner (hg : ∀ name, ¬g.IsLeftRecursive name) :
    WellFounded (flip g.LeftCorner) := by
  refine wellFounded_of_acyclic g.rules.names ?_ hg
  -- a nonterminal that has a corner has a rule
  rintro name middle corner - ⟨p, before, after, hp, -, -⟩
  exact hp.mem_names

lemma Form.mem_leading {corner : String}
    (hbefore : ∀ symbol ∈ before, symbol.isNonterminal = true) :
    corner ∈ Form.leading (before ++ .nonterminal corner :: after) := by
  rw [leading, List.takeWhile_append_of_pos hbefore, List.takeWhile_cons_of_pos rfl,
    Form.nonterminals_append, Form.nonterminals_cons_nonterminal]
  exact List.mem_append_right _ List.mem_cons_self

/-- There is no left recursion if the nonterminals that lead an alternative are of lower rank than
its own. -/
lemma Grammar.not_isLeftRecursive_of_rank (rank : String → Nat)
    (hrank : ∀ rule ∈ g.productions, ∀ corner ∈ Form.leading rule.2.runs,
      rank corner < rank rule.1) (name : String) : ¬g.IsLeftRecursive name := by
  apply not_transGen_of_rank rank
  rintro name corner ⟨p, before, after, hp, hruns, hbefore⟩
  refine hrank _ (hasProduction_iff_mem_productions.mp hp) corner ?_
  rw [hruns]
  apply Form.mem_leading
  intro symbol hmem
  obtain ⟨other, rfl, -⟩ := hbefore symbol hmem
  rfl

/-! ### The position in front of a nonterminal -/

lemma Grammar.terminates_nil : g.derivations.Terminates ⟨[], unread⟩ := by
  refine ⟨_, fun next hnext => ?_⟩
  cases hnext with
  | forced hforced => cases Derivation.finds_of_eq hforced
  | choice hchoice => cases Derivation.finds_of_eq hchoice

lemma Grammar.terminates_terminal {text : String}
    (h : ∀ later, unread = text.toList ++ later → g.derivations.Terminates ⟨rest, later⟩) :
    g.derivations.Terminates ⟨.terminal text :: rest, unread⟩ := by
  refine ⟨_, fun next hnext => ?_⟩
  cases hnext with
  | choice hchoice => cases Derivation.finds_of_eq hchoice
  | forced hforced =>
    cases Derivation.finds_of_eq hforced with
    | consume _ _ later => exact h later rfl

lemma Grammar.terminates_nonterminal
    (h : ∀ p, g.HasProduction name p → g.derivations.Terminates ⟨p.runs ++ rest, unread⟩) :
    g.derivations.Terminates ⟨.nonterminal name :: rest, unread⟩ := by
  refine ⟨_, fun next hnext => ?_⟩
  cases hnext with
  | forced hforced => cases Derivation.finds_of_eq hforced
  | choice hchoice hp =>
    cases Derivation.finds_of_eq hchoice with
    | choice _ _ halternatives => exact h _ ⟨_, halternatives, hp⟩

/-! ### Termination -/

/-- Whether a search terminates from every form once some input has been read. -/
def Grammar.TerminatesBelow (g : Grammar) (unread : List Char) : Prop :=
  ∀ form later, later.length < unread.length → g.derivations.Terminates ⟨form, later⟩

/-- Whether a search terminates with a nonterminal in front, given that it goes on only if the
nonterminal is nullable. -/
def Grammar.TerminatesBefore (g : Grammar) (unread : List Char) (name : String) : Prop :=
  ∀ rest, (g.IsNullable name → g.derivations.Terminates ⟨rest, unread⟩) →
    g.derivations.Terminates ⟨.nonterminal name :: rest, unread⟩

/-- What an alternative puts in front is passed from left to right: corners as long as they vanish,
and then a terminal, which reads input. -/
lemma Grammar.terminates_alternative (hbelow : g.TerminatesBelow unread)
    (hcorners : ∀ corner, g.LeftCorner name corner → g.TerminatesBefore unread corner)
    (hp : g.HasProduction name p)
    (hrest : g.IsNullable name → g.derivations.Terminates ⟨rest, unread⟩)
    (hruns : p.runs = before ++ after) (hbefore : g.Vanishes before) :
    g.derivations.Terminates ⟨after ++ rest, unread⟩ := by
  induction after generalizing before with
  | nil =>
    rw [List.append_nil] at hruns
    exact hrest (isNullable_of_vanishes hp (hruns ▸ hbefore))
  | cons symbol after ih =>
    cases symbol with
    | terminal text =>
      have htoken : (Symbol.terminal text).IsToken .run :=
        isToken_of_scan p.scan_text (hruns ▸ by simp)
      apply terminates_terminal
      intro later hunread
      apply hbelow
      have hpos : 0 < text.toList.length := by
        rw [List.length_pos_iff, Ne, String.toList_eq_nil_iff]
        exact htoken.1
      rw [hunread, List.length_append]
      omega
    | nonterminal corner =>
      refine hcorners corner ⟨p, before, after, hp, hruns, hbefore⟩ _ fun hnullable => ?_
      have hvanishes : g.Vanishes (before ++ [.nonterminal corner]) :=
        List.forall_mem_append.mpr ⟨hbefore, by simpa using hnullable⟩
      exact ih (by simp [hruns]) hvanishes

lemma Grammar.terminatesBefore (hg : ∀ name, ¬g.IsLeftRecursive name)
    (hbelow : g.TerminatesBelow unread) (name : String) : g.TerminatesBefore unread name := by
  induction name using g.wellFounded_leftCorner hg |>.induction with
  | _ name ih =>
    intro rest hrest
    apply terminates_nonterminal
    intro p hp
    exact terminates_alternative hbelow ih hp hrest (List.nil_append _).symm (List.forall_mem_nil _)

/-- Without left recursion a search terminates from every form and with every input. -/
theorem Grammar.terminates_derivations (hg : ∀ name, ¬g.IsLeftRecursive name) (form : Form)
    (unread : List Char) : g.derivations.Terminates ⟨form, unread⟩ := by
  -- by induction on the length of the input and, before more of it is read, on the form
  induction hlength : unread.length using Nat.strong_induction_on generalizing form unread with
  | _ length ih =>
    have hbelow : g.TerminatesBelow unread :=
      fun form later hlater => ih _ (hlength ▸ hlater) form later rfl
    induction form with
    | nil => exact terminates_nil
    | cons symbol rest hrest =>
      cases symbol with
      | nonterminal name => exact terminatesBefore hg hbelow name rest fun _ => hrest
      | terminal text =>
        apply terminates_terminal
        intro later hunread
        by_cases hempty : text.toList = []
        · rw [hempty, List.nil_append] at hunread
          exact hunread ▸ hrest
        · apply hbelow
          have hpos := List.length_pos_iff.mpr hempty
          rw [hunread, List.length_append]
          omega

/-! ### The verdict -/

lemma Grammar.stopsAtLimitOnly_derivations : g.derivations.StopsAtLimitOnly where
  step _ _ := rfl
  breakdown bound h := by
    cases Derivation.finds_of_eq h
    rintro ⟨⟩
  deadEnd bound h := by
    cases Derivation.finds_of_eq h with
    | leftover | barren => rintro ⟨⟩
    | @refusal text unread => cases unread <;> rintro ⟨⟩
  exhausted _ bound := by rintro ⟨⟩

lemma Grammar.exists_not_isStopped (hg : ∀ name, ¬g.IsLeftRecursive name) (input : String) :
    ∃ limit, ¬(g.searchDerivation input limit).IsStopped :=
  (terminates_derivations hg ..).exists_not_isStopped stopsAtLimitOnly_derivations .empty

/-- Without left recursion every search whose limit is large enough is not stopped at it, and
accepts or rejects its input. -/
theorem Grammar.searchDerivation_answers (g : Grammar) (hg : ∀ name, ¬g.IsLeftRecursive name)
    (input : String) : ∃ bound, ∀ limit, bound ≤ limit →
      ¬(g.searchDerivation input limit).IsStopped ∧
        ((g.searchDerivation input limit).verdict = .accepted ∨
          (g.searchDerivation input limit).verdict = .rejected) := by
  obtain ⟨bound, hbound⟩ := exists_not_isStopped hg input
  refine ⟨bound, fun limit hle => ?_⟩
  have hsame : Strategy.topDown.run g input limit = Strategy.topDown.run g input bound :=
    Strategy.run_eq_of_not_isStopped hbound hle
  rw [Strategy.run, Strategy.run] at hsame
  rw [hsame]
  refine ⟨hbound, ?_⟩
  obtain ⟨before, last, htrace, hdecides⟩ := g.searchDerivation_decides input bound
  rw [htrace] at hbound ⊢
  rcases hdecides.answers hbound with haccepted | hrejected | ⟨hstrategy, -⟩
  · exact .inl haccepted
  · exact .inr hrejected
  · cases hstrategy

theorem Grammar.signed_answers :
    (∀ name, ¬Grammar.signed.IsLeftRecursive name) ∧
      ∃ bound, ∀ limit, bound ≤ limit → ¬(Grammar.signed.searchDerivation "10-" limit).IsStopped ∧
        ((Grammar.signed.searchDerivation "10-" limit).verdict = .accepted ∨
          (Grammar.signed.searchDerivation "10-" limit).verdict = .rejected) := by
  have hg : ∀ name, ¬Grammar.signed.IsLeftRecursive name := by
    apply Grammar.not_isLeftRecursive_of_rank fun name => if name = "<Number>" then 1 else 0
    decide +kernel
  exact ⟨hg, Grammar.signed.searchDerivation_answers hg "10-"⟩

end GrammarTrace
