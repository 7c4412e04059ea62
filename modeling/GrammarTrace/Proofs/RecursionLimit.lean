import GrammarTrace.Proofs.Draws

/-!
# Sentences that are nested too deeply

Only the bound on the depth keeps a sentence from being made if every nonterminal has an
alternative. It does so for some choices just if nonterminals lead from the start symbol beyond the
bound, each of them standing in an alternative of the one before that may be taken at its depth
(`Grammar.Sinks`, and `Grammar.Descends` where the bound is four times the depth below which
alternatives are drawn). It is less for depths of which a machine word cannot hold four times as
much, and then a sentence may not be made though nothing leads as deep as that
(`Grammar.shallow_limit`).

To draw all alternatives on the way is not enough by itself: what stands to the left of them must
not fail in another way, and it cannot (`Grammar.IsExpandable.settles_within`).
-/

namespace GrammarTrace

open Choosing

variable {σ : Type} {g : Grammar} {chooser : Chooser σ} {maxDepth depth left : Nat}
  {name other : String} {p q first : Production} {others : List Production}

/-- Whether a nonterminal stands in an alternative of another one that may be taken at a depth. -/
def Grammar.Leads (g : Grammar) (maxDepth depth : Nat) (name other : String) : Prop :=
  ∃ p, g.Selects maxDepth depth name (.ok p) ∧ other ∈ p.nonterminals

/-- Whether nonterminals lead from one at a depth beyond the limit that belongs to another depth. -/
inductive Grammar.Sinks (g : Grammar) (maxDepth : Nat) : Nat → String → Prop where
  | beyond (name : String) : Sinks g maxDepth (hardLimit maxDepth + 1) name
  | onward {depth : Nat} {name other : String} (hdepth : depth ≤ hardLimit maxDepth)
      (hleads : g.Leads maxDepth depth name other) (h : Sinks g maxDepth (depth + 1) other) :
      Sinks g maxDepth depth name

lemma Grammar.exists_hasProduction_iff :
    (∃ p, g.HasProduction name p) ↔ ∃ rule ∈ g.productions, rule.1 = name := by
  simp [hasProduction_iff_mem_productions]

lemma Grammar.isExpandable_iff :
    g.IsExpandable ↔ (∃ rule ∈ g.productions, rule.1 = g.start) ∧
      ∀ rule ∈ g.productions, ∀ other ∈ rule.2.nonterminals,
        ∃ rule ∈ g.productions, rule.1 = other := by
  simp only [← exists_hasProduction_iff]
  constructor
  · rintro ⟨hstart, hnonterminals⟩
    refine ⟨hstart, fun rule hrule => ?_⟩
    exact hnonterminals (hasProduction_iff_mem_productions.mpr hrule)
  · rintro ⟨hstart, hnonterminals⟩
    refine ⟨hstart, fun name p hp => ?_⟩
    exact hnonterminals (name, p) (hasProduction_iff_mem_productions.mp hp)

instance (g : Grammar) : Decidable g.IsExpandable :=
  decidable_of_iff _ Grammar.isExpandable_iff.symm

lemma Grammar.IsSimplest.nonterminalCount_le (h : g.IsSimplest name p)
    (hq : g.HasProduction name q) : p.nonterminalCount ≤ q.nonterminalCount := by
  obtain ⟨before, after, halternatives, hbefore, hafter⟩ := h
  obtain ⟨alternatives, hq, hmem⟩ := hq
  obtain rfl := Option.some.inj (halternatives.symm.trans hq)
  rcases List.mem_append.mp hmem with hmem | hmem
  · exact (hbefore q hmem).le
  · rcases List.mem_cons.mp hmem with rfl | hmem
    · exact le_rfl
    · exact hafter q hmem

/-- A nonterminal has one simplest alternative. -/
lemma Grammar.IsSimplest.eq (hp : g.IsSimplest name p) (hq : g.IsSimplest name q) : p = q := by
  have hle := hp.nonterminalCount_le hq.hasProduction
  have hge := hq.nonterminalCount_le hp.hasProduction
  obtain ⟨before, after, halternatives, hbefore, -⟩ := hp
  obtain ⟨front, back, hother, hfront, -⟩ := hq
  have hsplit := Option.some.inj (halternatives.symm.trans hother)
  -- if one stood before the other then it would have fewer nonterminals
  rcases List.append_eq_append_iff.mp hsplit with ⟨between, rfl, hrest⟩ | ⟨between, rfl, hrest⟩
  · cases between with
    | nil => exact (List.cons.inj hrest).1
    | cons r between =>
      obtain ⟨rfl, -⟩ := List.cons.inj hrest
      exact absurd (hfront p (by simp)) (Nat.not_lt.mpr hle)
  · cases between with
    | nil => exact (List.cons.inj hrest).1.symm
    | cons r between =>
      obtain ⟨rfl, -⟩ := List.cons.inj hrest
      exact absurd (hbefore q (by simp)) (Nat.not_lt.mpr hge)

lemma Grammar.HasProduction.exists_selects (h : g.HasProduction name p) :
    ∃ q, g.Selects maxDepth depth name (.ok q) := by
  by_cases hdepth : depth < maxDepth
  · exact ⟨p, .drawn hdepth h⟩
  · obtain ⟨alternatives, halternatives, hmem⟩ := h
    obtain ⟨first, others, rfl⟩ := List.exists_cons_of_ne_nil (List.ne_nil_of_mem hmem)
    exact ⟨_, .simplest (Nat.not_lt.mp hdepth) (isSimplest_simplestAlternative halternatives)⟩

/-! ### Drawing alternatives -/

/-- Whether some nonterminal has this many alternatives. -/
def Grammar.HasCount (g : Grammar) (count : Nat) : Prop :=
  ∃ name alternatives, g.alternatives? name = some alternatives ∧ alternatives.length = count

lemma Grammar.can_pickAlternative {counts : Nat → Prop} (hcount : counts (first :: others).length)
    (hp : p ∈ first :: others) :
    Can chooser counts (pickAlternative chooser first others) (.ok p) := by
  obtain ⟨i, hi, rfl⟩ := List.getElem_of_mem hp
  refine ⟨[⟨(first :: others).length, ⟨i, hi⟩⟩], List.forall_mem_singleton.mpr hcount, ?_⟩
  intro state last h
  cases h with
  | cons hpick h =>
    cases h
    have hrun : (pickAlternative chooser first others).run state =
        (.ok ((first :: others).get (chooser.pick (first :: others).length (by simp) state).1),
          (chooser.pick (first :: others).length (by simp) state).2) := rfl
    rw [hrun, hpick]
    rfl

/-- Any alternative can be taken that may be taken. -/
lemma Grammar.Selects.can (h : g.Selects maxDepth depth name (.ok p)) :
    Can chooser g.HasCount (g.alternativeAt chooser maxDepth depth name) (.ok p) := by
  obtain ⟨alternatives, halternatives, hmem⟩ := h.hasProduction
  obtain ⟨first, others, rfl⟩ := List.exists_cons_of_ne_nil (List.ne_nil_of_mem hmem)
  rw [alternativeAt, halternatives]
  dsimp only
  cases h with
  | drawn hdepth _ =>
    rw [if_pos hdepth]
    exact can_pickAlternative ⟨name, _, halternatives, rfl⟩ hmem
  | simplest hdepth hp =>
    rw [if_neg (Nat.not_lt.mpr hdepth), hp.eq (isSimplest_simplestAlternative halternatives)]
    exact can_pure _

/-- The text of a symbol, a nonterminal being expanded when `left` expansions may be nested. -/
def Grammar.pieceWithin (g : Grammar) (chooser : Chooser σ) (maxDepth left : Nat) :
    Symbol → Choosing σ String
  | .terminal text => pure text
  | .nonterminal inner => g.expandWithin chooser maxDepth left inner

lemma Grammar.expandWithin_succ : g.expandWithin chooser maxDepth (left + 1) name = (do
    let p ← g.alternativeAt chooser maxDepth (hardLimit maxDepth - left) name
    let pieces ← p.runs.mapM (g.pieceWithin chooser maxDepth left)
    return String.join pieces) := rfl

/-- The symbols of an alternative settle if the nonterminals below do. -/
lemma Grammar.IsExpandable.settles_piece (hg : g.IsExpandable) (hp : g.HasProduction name p)
    (hbelow : ∀ inner, (∃ q, g.HasProduction inner q) →
      Settles chooser g.HasCount (.recursionLimit (hardLimit maxDepth))
        (g.expandWithin chooser maxDepth left inner)) :
    ∀ symbol ∈ p.runs, Settles chooser g.HasCount (.recursionLimit (hardLimit maxDepth))
      (g.pieceWithin chooser maxDepth left symbol) := by
  intro symbol hsymbol
  cases symbol with
  | terminal text => exact .inl ⟨text, can_pure text⟩
  | nonterminal inner =>
    exact hbelow inner (hg.nonterminals hp inner (Form.mem_nonterminals.mpr hsymbol))

/-- An expansion can be made to come to a text or to the bound. -/
lemma Grammar.IsExpandable.settles_within (hg : g.IsExpandable)
    (hname : ∃ p, g.HasProduction name p) :
    Settles chooser g.HasCount (.recursionLimit (hardLimit maxDepth))
      (g.expandWithin chooser maxDepth left name) := by
  induction left generalizing name with
  | zero => exact .inr (can_throw _)
  | succ left ih =>
    obtain ⟨p, hp⟩ := hname
    obtain ⟨q, hq⟩ : ∃ q, g.Selects maxDepth (hardLimit maxDepth - left) name (.ok q) :=
      hp.exists_selects
    have hpieces := Settles.mapM (hg.settles_piece hq.hasProduction fun _ hinner => ih hinner)
    rw [expandWithin_succ]
    exact hq.can.settles_bind (hpieces.bind fun pieces => .inl ⟨_, can_pure _⟩)

/-- Whatever leads beyond the bound can be followed there. -/
lemma Grammar.Sinks.can (h : g.Sinks maxDepth depth name) (hg : g.IsExpandable)
    (hdepth : depth + left = hardLimit maxDepth + 1) :
    Can chooser g.HasCount (g.expandWithin chooser maxDepth left name)
      (.error (.recursionLimit (hardLimit maxDepth))) := by
  induction h generalizing left with
  | beyond name =>
    obtain rfl : left = 0 := by omega
    exact can_throw _
  | @onward depth name other hbound hleads _ ih =>
    obtain ⟨p, hp, hother⟩ := hleads
    obtain ⟨rest, rfl⟩ := Nat.exists_eq_succ_of_ne_zero (show left ≠ 0 by omega)
    obtain rfl : depth = hardLimit maxDepth - rest := by omega
    have hpieces : ∀ symbol ∈ p.runs,
        Settles chooser g.HasCount (.recursionLimit (hardLimit maxDepth))
          (g.pieceWithin chooser maxDepth rest symbol) :=
      hg.settles_piece hp.hasProduction fun _ hinner => hg.settles_within hinner
    have hfault : Can chooser g.HasCount
        (g.pieceWithin chooser maxDepth rest (.nonterminal other)) _ := ih (by omega)
    rw [Nat.succ_eq_add_one, expandWithin_succ]
    exact hp.can.bind
      (Can.mapM_error hpieces (Form.mem_nonterminals.mp hother) hfault).bind_error

end GrammarTrace
