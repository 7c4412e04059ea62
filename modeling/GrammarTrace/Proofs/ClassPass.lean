import Mathlib.Data.List.Forall2
import GrammarTrace.Proofs.Classification
import GrammarTrace.Proofs.ReductionSearch

/-!
# One pass over the tokens

To replace the terminals of an input by their classes the form may be searched from its front again
after every replacement (`Grammar.rescan`). Nothing is ever found in the part that has been
searched, because it holds nonterminals and terminals without a class only, so a single pass from
left to right makes the same replacements (`Grammar.normalize_eq_rescan`). The pass makes one
replacement for each terminal that has a class, in the order of their positions, as far as the limit
allows (`Grammar.passes_normalize`).
-/

namespace GrammarTrace

variable {g : Grammar} {classes : List (String × List Production)} {limit : Nat}
  {symbol : Symbol} {text name : String} {before rest done tokens form : Form}
  {trace : Trace} {action : Action} {i : Nat}

/-! ### Searching from the front -/

/-- Replace the first terminal that has a class. -/
def Grammar.replaceFirst? (classes : List (String × List Production)) :
    Form → Option (Action × Form)
  | [] => none
  | symbol :: rest =>
    match classOf? classes symbol with
    | some name => some (.normalize symbol.text name, .nonterminal name :: rest)
    | none => (replaceFirst? classes rest).map fun found => (found.1, symbol :: found.2)

lemma Grammar.replaceFirst_eq_none (h : ∀ symbol ∈ form, classOf? classes symbol = none) :
    replaceFirst? classes form = none := by
  induction form with
  | nil => rfl
  | cons symbol rest ih =>
    obtain ⟨hsymbol, hrest⟩ := List.forall_mem_cons.mp h
    simp [replaceFirst?, hsymbol, ih hrest]

lemma Grammar.replaceFirst_append (h : ∀ symbol ∈ before, classOf? classes symbol = none) :
    replaceFirst? classes (before ++ rest) =
      (replaceFirst? classes rest).map fun found => (found.1, before ++ found.2) := by
  induction before with
  | nil => simp
  | cons symbol before ih =>
    obtain ⟨hsymbol, hbefore⟩ := List.forall_mem_cons.mp h
    simp [replaceFirst?, hsymbol, ih hbefore, Function.comp_def]

/-- The number of terminals of a form. -/
def Form.terminalCount (form : Form) : Nat := form.countP fun symbol => !symbol.isNonterminal

lemma Grammar.terminalCount_replaceFirst {next : Form}
    (h : replaceFirst? classes form = some (action, next)) :
    form.terminalCount = next.terminalCount + 1 := by
  induction form generalizing next with
  | nil => cases h
  | cons symbol rest ih =>
    rw [replaceFirst?] at h
    cases hclass : classOf? classes symbol with
    | some name =>
      simp only [hclass, Option.some.injEq, Prod.mk.injEq] at h
      obtain ⟨-, rfl⟩ := h
      cases symbol with
      | nonterminal other => cases hclass
      | terminal text => simp [Form.terminalCount, Symbol.isNonterminal]
    | none =>
      simp only [hclass, Option.map_eq_some_iff, Prod.mk.injEq] at h
      obtain ⟨found, hfound, rfl, rfl⟩ := h
      have hcount := ih hfound
      simp only [Form.terminalCount, List.countP_cons] at hcount ⊢
      omega

/-- Replace the first terminal that has a class as long as there is one, and the trace has not
reached the limit. -/
def Grammar.rescan (classes : List (String × List Production)) (limit : Nat) (form : Form)
    (trace : Trace) : Progress Form Reduction :=
  match _h : replaceFirst? classes form with
  | none => .running ⟨form, [], trace⟩
  | some (action, next) =>
    if limit ≤ trace.size then .ended (trace.push { action := .stepLimit limit, form })
    else rescan classes limit next (trace.push { action, form := next })
termination_by form.terminalCount
decreasing_by
  have := terminalCount_replaceFirst _h
  omega

lemma Grammar.rescan_of_none (h : replaceFirst? classes form = none) :
    rescan classes limit form trace = .running ⟨form, [], trace⟩ := by
  rw [rescan]
  split
  · rfl
  · next hsome => cases h.symm.trans hsome

lemma Grammar.rescan_of_some {next : Form} (h : replaceFirst? classes form = some (action, next)) :
    rescan classes limit form trace =
      if limit ≤ trace.size then .ended (trace.push { action := .stepLimit limit, form })
      else rescan classes limit next (trace.push { action, form := next }) := by
  rw [rescan]
  split
  · next hnone => cases hnone.symm.trans h
  · next hsome =>
    cases h.symm.trans hsome
    rfl

/-- Where the front of a form has been gone through, going on is the same as searching it again. -/
lemma Grammar.normalizeFrom_eq_rescan (hdone : ∀ symbol ∈ done, classOf? classes symbol = none) :
    normalizeFrom classes limit done rest trace =
      rescan classes limit (done.reverse ++ rest) trace := by
  induction rest generalizing done trace with
  | nil =>
    have hnone : replaceFirst? classes done.reverse = none :=
      replaceFirst_eq_none (by simpa using hdone)
    rw [normalizeFrom, List.append_nil, rescan_of_none hnone]
  | cons symbol rest ih =>
    rw [normalizeFrom]
    cases hclass : classOf? classes symbol with
    | none =>
      have hrest := @ih (symbol :: done) trace (List.forall_mem_cons.mpr ⟨hclass, hdone⟩)
      simpa using hrest
    | some name =>
      have hfound : replaceFirst? classes (done.reverse ++ symbol :: rest) =
          some (.normalize symbol.text name, done.reverse ++ .nonterminal name :: rest) := by
        rw [replaceFirst_append (by simpa using hdone), replaceFirst?, hclass, Option.map_some]
      dsimp only
      rw [rescan_of_some hfound, List.reverseAux_eq, List.reverseAux_eq,
        ih (List.forall_mem_cons.mpr ⟨rfl, hdone⟩), List.reverse_cons, List.append_assoc,
        List.singleton_append]

/-- One pass makes the replacements that searching from the front again makes. -/
theorem Grammar.normalize_eq_rescan (g : Grammar) (limit : Nat) (tokens : Form) :
    g.normalize limit tokens = rescan g.lexicalClasses limit tokens
      (Trace.empty.push { action := .start, form := tokens }) :=
  normalizeFrom_eq_rescan (List.forall_mem_nil _)

/-! ### Symbols one by one -/

/-- Whether a symbol is a terminal that is a whole alternative of some class. -/
def Grammar.IsReplaceable (g : Grammar) (symbol : Symbol) : Prop :=
  ∃ text name, symbol = .terminal text ∧ g.IsClassOf name text

/-- What a pass makes of a symbol: a terminal is replaced by its first class in declaration order,
and any other symbol is kept. -/
inductive Grammar.Classifies (g : Grammar) : Symbol → Symbol → Prop where
  | replaced {text name : String} (h : g.IsFirstClassOf name text) :
      Classifies g (.terminal text) (.nonterminal name)
  | kept {symbol : Symbol} (h : ¬g.IsReplaceable symbol) : Classifies g symbol symbol

lemma Grammar.isReplaceable_iff :
    g.IsReplaceable symbol ↔ (classOf? g.lexicalClasses symbol).isSome = true := by
  constructor
  · rintro ⟨text, name, rfl, hclass⟩
    by_contra hnone
    exact not_isClassOf_of_classOf (Option.not_isSome_iff_eq_none.mp hnone) hclass
  · intro hsome
    obtain ⟨name, hclass⟩ := Option.isSome_iff_exists.mp hsome
    obtain ⟨text, -, rfl, -⟩ := exists_of_classOf hclass
    exact ⟨text, name, rfl, (isFirstClassOf_of_classOf hclass).1⟩

lemma Grammar.classifies_classify (symbol : Symbol) : g.Classifies symbol (g.classify symbol) := by
  cases hclass : classOf? g.lexicalClasses symbol with
  | none =>
    rw [classify_of_none hclass]
    exact .kept (by simp [isReplaceable_iff, hclass])
  | some name =>
    obtain ⟨text, -, rfl, -⟩ := exists_of_classOf hclass
    rw [classify_of_some hclass]
    exact .replaced (isFirstClassOf_of_classOf hclass)

lemma Grammar.forall₂_classifies (form : Form) :
    List.Forall₂ g.Classifies form (g.classified form) :=
  List.forall₂_map_right_iff.mpr (List.forall₂_same.mpr fun symbol _ => classifies_classify symbol)

/-- Nothing that is left by a pass would be replaced by another one. -/
lemma Grammar.Classifies.not_isReplaceable {left : Symbol} (h : g.Classifies symbol left) :
    ¬g.IsReplaceable left := by
  cases h with
  | replaced => rintro ⟨_, _, ⟨⟩, _⟩
  | kept h => exact h

lemma Grammar.not_isReplaceable_of_classifies (h : List.Forall₂ g.Classifies tokens form) :
    ∀ symbol ∈ form, ¬g.IsReplaceable symbol := by
  induction h with
  | nil => exact List.forall_mem_nil _
  | cons hsymbol _ ih => exact List.forall_mem_cons.mpr ⟨hsymbol.not_isReplaceable, ih⟩

/-! ### Replacements in order -/

/-- Whether these are the positions of the terminals to replace, from left to right. -/
structure Grammar.Locates (g : Grammar) (tokens : Form) (positions : List Nat) : Prop where
  ascending : positions.Pairwise (· < ·)
  mem_iff (i : Nat) :
    i ∈ positions ↔ ∃ symbol, tokens[i]? = some symbol ∧ g.IsReplaceable symbol

/-- The step that replaces the terminal at a position, once a pass has gone through what stands
before it. -/
inductive Grammar.ReplacesAt (g : Grammar) (tokens : Form) : Nat → Step → Prop where
  | intro {before front after : Form} {text name : String}
      (htokens : tokens = before ++ .terminal text :: after)
      (hfront : List.Forall₂ g.Classifies before front) (hfirst : g.IsFirstClassOf name text) :
      ReplacesAt g tokens before.length
        { action := .normalize text name, form := front ++ .nonterminal name :: after }

/-- How a pass goes that has some positions still ahead of it at which there are terminals to
replace: it is stopped at one of them, having replaced the terminals before, or it replaces all. -/
inductive Grammar.Passes (g : Grammar) (limit : Nat) (tokens : Form) (trace : Trace)
    (positions : List Nat) : List Step → Progress Form Reduction → Prop where
  | stopped {steps : List Step} {form : Form} (hlimit : limit - trace.size < positions.length)
      (hsteps : List.Forall₂ (g.ReplacesAt tokens) (positions.take (limit - trace.size)) steps) :
      Passes g limit tokens trace positions steps
        (.ended ((trace.pushAll steps).push { action := .stepLimit limit, form }))
  | done {steps : List Step} {form : Form} (hlimit : positions.length ≤ limit - trace.size)
      (hsteps : List.Forall₂ (g.ReplacesAt tokens) positions steps)
      (hform : List.Forall₂ g.Classifies tokens form) :
      Passes g limit tokens trace positions steps (.running ⟨form, [], trace.pushAll steps⟩)

variable {positions : List Nat} {step : Step} {steps : List Step}
  {progress : Progress Form Reduction}

/-- A replacement is made before all that come after it. -/
lemma Grammar.Passes.cons (hlimit : trace.size < limit) (hstep : g.ReplacesAt tokens i step)
    (h : g.Passes limit tokens (trace.push step) positions steps progress) :
    g.Passes limit tokens trace (i :: positions) (step :: steps) progress := by
  have hleft : limit - trace.size = limit - (trace.push step).size + 1 := by
    rw [Trace.size_push]
    omega
  cases h with
  | stopped hbound hsteps =>
    refine .stopped ?_ ?_
    · rw [hleft, List.length_cons]
      exact Nat.succ_lt_succ hbound
    · rw [hleft, List.take_succ_cons]
      exact .cons hstep hsteps
  | done hbound hsteps hform =>
    refine .done ?_ (.cons hstep hsteps) hform
    rw [hleft, List.length_cons]
    exact Nat.succ_le_succ hbound

/-- The positions from one on, of so many, at which there are terminals to replace. -/
def Grammar.positionsFrom (g : Grammar) (tokens : Form) (start count : Nat) : List Nat :=
  (List.range' start count).filter fun i =>
    tokens[i]?.any fun symbol => (classOf? g.lexicalClasses symbol).isSome

lemma Grammar.positionsFrom_succ (htokens : tokens = before ++ symbol :: rest) (count : Nat) :
    g.positionsFrom tokens before.length (count + 1) =
      if (classOf? g.lexicalClasses symbol).isSome then
        before.length :: g.positionsFrom tokens (before.length + 1) count
      else g.positionsFrom tokens (before.length + 1) count := by
  have hsymbol : tokens[before.length]? = some symbol := by simp [htokens]
  rw [positionsFrom, List.range'_succ, List.filter_cons, hsymbol]
  rfl

lemma Grammar.locates_positionsFrom (g : Grammar) (tokens : Form) :
    g.Locates tokens (g.positionsFrom tokens 0 tokens.length) := by
  refine ⟨List.Pairwise.filter _ List.pairwise_lt_range', fun i => ?_⟩
  simp only [positionsFrom, isReplaceable_iff, List.mem_filter, Option.any_eq_true,
    List.mem_range'_1, Nat.zero_le, Nat.zero_add, true_and, and_iff_right_iff_imp]
  rintro ⟨symbol, hsymbol, -⟩
  exact (List.getElem?_eq_some_iff.mp hsymbol).1

/-- Induction on what is ahead of the pass: what it has gone through is classified. -/
lemma Grammar.passes_normalizeFrom (htokens : tokens = before ++ rest)
    (hdone : done.reverse = g.classified before) :
    ∃ steps, g.Passes limit tokens trace (g.positionsFrom tokens before.length rest.length) steps
      (normalizeFrom g.lexicalClasses limit done rest trace) := by
  induction rest generalizing before done trace with
  | nil =>
    obtain rfl : tokens = before := by simpa using htokens
    rw [normalizeFrom, hdone]
    exact ⟨[], .done (Nat.zero_le _) .nil (forall₂_classifies _)⟩
  | cons symbol rest ih =>
    have hnext : tokens = before ++ [symbol] ++ rest := by simpa using htokens
    have hlength : (before ++ [symbol]).length = before.length + 1 := by simp
    rw [normalizeFrom, List.length_cons, positionsFrom_succ htokens]
    cases hclass : classOf? g.lexicalClasses symbol with
    | none =>
      have hpassed : (symbol :: done).reverse = g.classified (before ++ [symbol]) := by
        simp [hdone, classify_of_none hclass]
      simpa [hlength] using @ih _ _ trace hnext hpassed
    | some name =>
      obtain ⟨text, -, rfl, -⟩ := exists_of_classOf hclass
      have hpassed : (.nonterminal name :: done).reverse =
          g.classified (before ++ [.terminal text]) := by
        simp [hdone, classify_of_some hclass]
      rw [Option.isSome_some, if_pos rfl]
      dsimp only
      split_ifs with hlimit
      · refine ⟨[], .stopped ?_ ?_⟩
        · simp [Nat.sub_eq_zero_of_le hlimit]
        · simp [Nat.sub_eq_zero_of_le hlimit]
      · have hstep : g.ReplacesAt tokens before.length
            { action := .normalize text name
              form := done.reverseAux (.nonterminal name :: rest) } := by
          rw [List.reverseAux_eq, hdone]
          exact .intro htokens (forall₂_classifies before) (isFirstClassOf_of_classOf hclass)
        obtain ⟨steps, hsteps⟩ := @ih _ _ (trace.push
          { action := .normalize text name
            form := done.reverseAux (.nonterminal name :: rest) }) hnext hpassed
        rw [hlength] at hsteps
        exact ⟨_, hsteps.cons (Nat.not_le.mp hlimit) hstep⟩

/-- A pass replaces the terminals that have a class, one after the other from left to right. -/
theorem Grammar.passes_normalize (g : Grammar) (limit : Nat) (tokens : Form) :
    ∃ steps, g.Passes limit tokens (Trace.empty.push { action := .start, form := tokens })
      (g.positionsFrom tokens 0 tokens.length) steps (g.normalize limit tokens) :=
  passes_normalizeFrom (List.nil_append tokens).symm rfl

/-! ### The search -/

lemma Grammar.not_normalize_of_records {I : Form → Prop}
    (h : g.reductionRules.space.Records I limit step) :
    step.action ≠ .normalize text name := by
  have hgiveUp : ∀ form reason, reason ≠ .normalize text name →
      (g.reductionRules.giveUp form reason).action ≠ .normalize text name := by
    intro form reason hreason
    rcases g.action_giveUp form reason with h | h
    · rwa [h]
    · simp [h]
  cases h with
  | forced _ h => cases finds_of_eq h
  | breakdown _ h => cases finds_of_eq h
  | choice | retry | abandon | limit | goal => exact Action.noConfusion
  | deadEnd _ h =>
    cases finds_of_eq h
    exact hgiveUp _ _ (by simp)
  | exhausted => exact hgiveUp _ _ (by simp)

/-- Nothing is replaced by its class once the search has its form. -/
lemma Grammar.extends_run_reductions (g : Grammar) (limit : Nat) (form : Form) (trace : Trace) :
    trace.Extends (fun step => ∀ text name, step.action ≠ .normalize text name)
      (g.reductionRules.space.run limit ⟨form, [], trace⟩) := by
  obtain ⟨more, hrun, hmore⟩ : trace.Extends (g.reductionRules.space.Records _ limit) _ :=
    SearchSpace.extends_run SearchSpace.preserves_true (SearchSpace.sound_of_start trivial)
  exact ⟨more, hrun, fun step hstep _ _ => not_normalize_of_records (hmore step hstep)⟩

/-- A search starts with one pass over the tokens of its input. It replaces the terminals at those
positions where there is a terminal of a class, in their order, and leaves the form that has each of
these terminals replaced by its first class and nothing else changed, which has no such terminal any
more. If the limit stops it, it has made as many replacements as there is room for after the first
step. None is made later. -/
theorem Grammar.searchReduction_passes (g : Grammar) (input : String) (limit : Nat) {tokens : Form}
    (htokens : scan .char input = .ok tokens) :
    g.normalize limit tokens = rescan g.lexicalClasses limit tokens
      (Trace.empty.push { action := .start, form := tokens }) ∧
    ∃ positions steps rest, g.Locates tokens positions ∧
      (g.searchReduction input limit).toList =
        { action := .start, form := tokens } :: steps ++ rest ∧
      (∀ step ∈ rest, ∀ text name, step.action ≠ .normalize text name) ∧
      ((limit - 1 < positions.length ∧
          List.Forall₂ (g.ReplacesAt tokens) (positions.take (limit - 1)) steps ∧
          ∃ form, rest = [{ action := .stepLimit limit, form }]) ∨
        (positions.length ≤ limit - 1 ∧ List.Forall₂ (g.ReplacesAt tokens) positions steps ∧
          ∃ form trace, g.normalize limit tokens = .running ⟨form, [], trace⟩ ∧
            List.Forall₂ g.Classifies tokens form ∧ ∀ symbol ∈ form, ¬g.IsReplaceable symbol)) := by
  refine ⟨g.normalize_eq_rescan limit tokens, g.positionsFrom tokens 0 tokens.length, ?_⟩
  obtain ⟨steps, hpasses⟩ := g.passes_normalize limit tokens
  have hpositions := g.locates_positionsFrom tokens
  rw [searchReduction, htokens]
  dsimp only
  generalize g.normalize limit tokens = progress at hpasses ⊢
  cases hpasses with
  | @stopped form hlimit hsteps =>
    refine ⟨steps, [{ action := .stepLimit limit, form }], hpositions, ?_, ?_,
      .inl ⟨hlimit, hsteps, form, rfl⟩⟩
    · simp
    · simp
  | @done form hlimit hsteps hform =>
    obtain ⟨rest, hrun, hrest⟩ := g.extends_run_reductions limit form
      ((Trace.empty.push { action := .start, form := tokens }).pushAll steps)
    refine ⟨steps, rest, hpositions, ?_, ?_, .inr ⟨hlimit, hsteps, form, _, rfl, hform, ?_⟩⟩
    · simpa using hrun
    · exact hrest
    · exact not_isReplaceable_of_classifies hform

/-- At the limit of two there is room for one replacement. -/
theorem Grammar.sums_passes :
    scan .char "1+0" = .ok [.terminal "1", .terminal "+", .terminal "0"] ∧
    ∃ positions steps rest,
      Grammar.sums.Locates [.terminal "1", .terminal "+", .terminal "0"] positions ∧
      (Grammar.sums.searchReduction "1+0" 2).toList =
        { action := .start, form := [.terminal "1", .terminal "+", .terminal "0"] } ::
          steps ++ rest ∧
      List.Forall₂ (Grammar.sums.ReplacesAt [.terminal "1", .terminal "+", .terminal "0"])
        (positions.take 1) steps := by
  have htokens : scan .char "1+0" = .ok [.terminal "1", .terminal "+", .terminal "0"] :=
    scan_of_plain (by decide) (by decide)
  obtain ⟨-, positions, steps, rest, hpositions, htrace, -, hpass⟩ :=
    Grammar.sums.searchReduction_passes "1+0" 2 htokens
  refine ⟨htokens, positions, steps, rest, hpositions, htrace, ?_⟩
  rcases hpass with ⟨-, hsteps, -⟩ | ⟨hlength, hsteps, -⟩
  · exact hsteps
  · rwa [List.take_of_length_le hlength]

end GrammarTrace
