import Mathlib.Data.List.Forall2
import GrammarTrace.Proofs.Agreement
import GrammarTrace.Proofs.Trees
import GrammarTrace.Sentence

/-!
# The sentences that are made

A sentence is the text of a derivation tree of bounded depth, whatever is chosen to make it
(`Grammar.sentence_grown`), and the search for a derivation never rejects it if every nonterminal
has a rule. If every nonterminal has an alternative, too, then only the bound on the depth can keep
a sentence from being made (`Grammar.IsExpandable.fault_eq`).

What comes of an expansion is said once (`Grammar.Expands`), in terms of what comes of the
expansions below it, so that facts about sentences are proved by induction on the depth that is
left.
-/

namespace GrammarTrace

variable {σ α β : Type}

/-! ### What comes of choosing -/

namespace Choosing

/-- Whether a result can come of a computation, whatever state it chooses with. -/
def Gives (m : Choosing σ α) (result : Except SentenceFault α) : Prop :=
  ∃ state, (m.run state).1 = result

lemma run_bind (m : Choosing σ α) (f : α → Choosing σ β) (state : σ) :
    (m >>= f).run state =
      match m.run state with
      | (.ok a, next) => (f a).run next
      | (.error fault, next) => (.error fault, next) := by
  rw [ExceptT.run_bind]
  simp only [bind, StateT.bind]
  rcases m.run state with ⟨_ | _, next⟩ <;> rfl

variable {m : Choosing σ α} {f : α → Choosing σ β} {a : α} {fault : SentenceFault}

lemma Gives.of_pure {result : Except SentenceFault α} (h : Gives (pure a : Choosing σ α) result) :
    result = .ok a := by
  obtain ⟨state, rfl⟩ := h
  rfl

lemma Gives.of_throw {result : Except SentenceFault α}
    (h : Gives (throw fault : Choosing σ α) result) : result = .error fault := by
  obtain ⟨state, rfl⟩ := h
  rfl

lemma Gives.of_bind {result : Except SentenceFault β} (h : Gives (m >>= f) result) :
    (∃ a, Gives m (.ok a) ∧ Gives (f a) result) ∨
      ∃ fault, Gives m (.error fault) ∧ result = .error fault := by
  obtain ⟨state, rfl⟩ := h
  rw [run_bind]
  rcases hm : m.run state with ⟨fault | a, next⟩
  · exact .inr ⟨fault, ⟨state, by rw [hm]⟩, rfl⟩
  · exact .inl ⟨a, ⟨state, by rw [hm]⟩, ⟨next, rfl⟩⟩

/-- A list is worked through from left to right up to the first fault. -/
lemma Gives.of_mapM {items : List α} {result : Except SentenceFault (List β)}
    (h : Gives (items.mapM f) result) :
    (∃ values, List.Forall₂ (fun a b => Gives (f a) (.ok b)) items values ∧ result = .ok values) ∨
      ∃ a ∈ items, ∃ fault, Gives (f a) (.error fault) ∧ result = .error fault := by
  induction items generalizing result with
  | nil =>
    rw [List.mapM_nil] at h
    exact .inl ⟨[], .nil, h.of_pure⟩
  | cons a items ih =>
    rw [List.mapM_cons] at h
    rcases h.of_bind with ⟨b, hb, h⟩ | ⟨fault, hfault, rfl⟩
    · rcases h.of_bind with ⟨values, hvalues, h⟩ | ⟨fault, hfault, rfl⟩
      · rcases ih hvalues with ⟨_, hall, ⟨⟩⟩ | ⟨_, _, _, _, ⟨⟩⟩
        exact .inl ⟨b :: values, .cons hb hall, h.of_pure⟩
      · rcases ih hfault with ⟨_, _, ⟨⟩⟩ | ⟨c, hmem, _, hc, ⟨⟩⟩
        exact .inr ⟨c, List.mem_cons_of_mem _ hmem, fault, hc, rfl⟩
    · exact .inr ⟨a, List.mem_cons_self, fault, hfault, rfl⟩

end Choosing

open Choosing

/-! ### The limit of the depth -/

/-- The product of machine words is never greater than that of the numbers. -/
lemma Grammar.hardLimit_le (maxDepth : Nat) : hardLimit maxDepth ≤ 4 * maxDepth := by
  rw [hardLimit, UInt64.toNat_mul, UInt64.toNat_ofNat', Nat.mul_comm]
  exact (Nat.mod_le _ _).trans (Nat.mul_le_mul_left 4 (Nat.mod_le _ _))

/-- Whether a production is the first alternative of a nonterminal with the fewest nonterminals. -/
def Grammar.IsSimplest (g : Grammar) (name : String) (p : Production) : Prop :=
  ∃ before after, g.alternatives? name = some (before ++ p :: after) ∧
    (∀ q ∈ before, p.nonterminalCount < q.nonterminalCount) ∧
    ∀ q ∈ after, p.nonterminalCount ≤ q.nonterminalCount

/-- What comes of looking for the alternative that replaces a nonterminal at a depth. -/
inductive Grammar.Selects (g : Grammar) (maxDepth depth : Nat) (name : String) :
    Except SentenceFault Production → Prop where
  | undefined (h : g.alternatives? name = none) :
      Selects g maxDepth depth name (.error (.undefinedNonterminal name))
  | barren (h : g.alternatives? name = some []) :
      Selects g maxDepth depth name (.error (.noAlternatives name))
  | drawn {p : Production} (hdepth : depth < maxDepth) (hp : g.HasProduction name p) :
      Selects g maxDepth depth name (.ok p)
  | simplest {p : Production} (hdepth : maxDepth ≤ depth) (hp : g.IsSimplest name p) :
      Selects g maxDepth depth name (.ok p)

/-- Whether a text can come of a symbol, given what comes of nonterminals. -/
def Symbol.Spells (inner : String → Except SentenceFault String → Prop) :
    Symbol → String → Prop
  | .terminal text, piece => piece = text
  | .nonterminal name, piece => inner name (.ok piece)

/-- What comes of expanding a nonterminal at a depth, given what comes of the nonterminals below. -/
inductive Grammar.Expands (g : Grammar) (maxDepth depth : Nat) (name : String)
    (inner : String → Except SentenceFault String → Prop) : Except SentenceFault String → Prop where
  | fault {fault : SentenceFault} (h : g.Selects maxDepth depth name (.error fault)) :
      Expands g maxDepth depth name inner (.error fault)
  | below {p : Production} {other : String} {fault : SentenceFault}
      (h : g.Selects maxDepth depth name (.ok p)) (hother : .nonterminal other ∈ p.runs)
      (hfault : inner other (.error fault)) : Expands g maxDepth depth name inner (.error fault)
  | text {p : Production} {pieces : List String} (h : g.Selects maxDepth depth name (.ok p))
      (hpieces : List.Forall₂ (Symbol.Spells inner) p.runs pieces) :
      Expands g maxDepth depth name inner (.ok (String.join pieces))

variable {g : Grammar} {chooser : Chooser σ} {maxDepth depth left : Nat} {name : String}
  {p first : Production} {others : List Production} {form : Form} {pieces : List String}
  {inner : String → Except SentenceFault String → Prop} {result : Except SentenceFault String}

lemma Grammar.IsSimplest.hasProduction (h : g.IsSimplest name p) : g.HasProduction name p := by
  obtain ⟨before, after, halternatives, -, -⟩ := h
  exact ⟨_, halternatives, by simp⟩

lemma Grammar.isSimplest_simplestAlternative (h : g.alternatives? name = some (first :: others)) :
    g.IsSimplest name (simplestAlternative first others) := by
  have hne : first :: others ≠ [] := List.cons_ne_nil first others
  obtain ⟨hindex, hget, hbefore⟩ :=
    (List.minIdxOn_eq_iff_eq_minOn hne (f := Production.nonterminalCount)).mp rfl
  generalize List.minIdxOn Production.nonterminalCount (first :: others) hne = i at *
  refine ⟨(first :: others).take i, (first :: others).drop (i + 1), ?_, ?_, ?_⟩
  · rw [h, simplestAlternative, ← hget, List.getElem_cons_drop, List.take_append_drop]
  · intro q hq
    obtain ⟨j, hj, rfl⟩ := List.mem_take_iff_getElem.mp hq
    exact hbefore j (by omega)
  · intro q hq
    exact List.apply_minOn_le_of_mem (List.mem_of_mem_drop hq)

lemma Grammar.exists_of_pickAlternative {result : Except SentenceFault Production}
    (h : Gives (pickAlternative chooser first others) result) :
    ∃ p ∈ first :: others, result = .ok p := by
  obtain ⟨state, rfl⟩ := h
  exact ⟨_, List.getElem_mem _, rfl⟩

lemma Grammar.selects_of_gives {result : Except SentenceFault Production}
    (h : Gives (g.alternativeAt chooser maxDepth depth name) result) :
    g.Selects maxDepth depth name result := by
  rw [alternativeAt] at h
  split at h
  · next hnone => exact h.of_throw ▸ .undefined hnone
  · next hnone => exact h.of_throw ▸ .barren hnone
  · next first others halternatives =>
    split_ifs at h with hdepth
    · obtain ⟨p, hp, rfl⟩ := exists_of_pickAlternative h
      exact .drawn hdepth ⟨_, halternatives, hp⟩
    · exact h.of_pure ▸
        .simplest (Nat.not_lt.mp hdepth) (isSimplest_simplestAlternative halternatives)

lemma Grammar.expands_of_gives
    (h : Gives (g.expandWithin chooser maxDepth (left + 1) name) result) :
    g.Expands maxDepth (hardLimit maxDepth - left) name
      (fun other => Gives (g.expandWithin chooser maxDepth left other)) result := by
  rw [expandWithin] at h
  rcases h.of_bind with ⟨p, hp, h⟩ | ⟨fault, hfault, rfl⟩
  · have hselects := selects_of_gives hp
    rcases h.of_bind with ⟨pieces, hpieces, h⟩ | ⟨fault, hfault, rfl⟩
    · obtain rfl := h.of_pure
      refine .text hselects ?_
      rcases hpieces.of_mapM with ⟨_, hall, ⟨⟩⟩ | ⟨_, _, _, _, ⟨⟩⟩
      refine hall.imp fun symbol piece hpiece => ?_
      cases symbol with
      | terminal text => exact Except.ok.inj hpiece.of_pure
      | nonterminal other => exact hpiece
    · rcases hfault.of_mapM with ⟨_, _, ⟨⟩⟩ | ⟨symbol, hmem, _, hsymbol, ⟨⟩⟩
      cases symbol with
      | terminal text => cases hsymbol.of_pure
      | nonterminal other => exact .below hselects hmem hsymbol
  · exact .fault (selects_of_gives hfault)

/-! ### Sentences and their trees -/

/-- Whether a nonterminal may be replaced in this way when alternatives are drawn above a depth: not
deeper than the limit that belongs to this depth, which is never more than four times the depth, and
from this depth on by the simplest alternative. -/
structure Grammar.Allows (g : Grammar) (maxDepth : Nat) (r : Replacement) : Prop where
  within : r.depth ≤ hardLimit maxDepth
  depth_le : r.depth ≤ 4 * maxDepth
  isSimplest : maxDepth ≤ r.depth → g.IsSimplest r.name r.production

/-- Whether a text is that of trees with allowed replacements, their roots being at a depth. -/
def Grammar.Grows (g : Grammar) (maxDepth depth : Nat) (form : Form) (text : String) : Prop :=
  ∃ trees : g.Trees form, trees.text = text ∧
    ∀ r ∈ trees.replacements depth, g.Allows maxDepth r

lemma Grammar.Selects.allows (h : g.Selects maxDepth depth name (.ok p))
    (hdepth : depth ≤ hardLimit maxDepth) : g.Allows maxDepth ⟨depth, name, p⟩ := by
  refine ⟨hdepth, hdepth.trans (hardLimit_le maxDepth), fun hmax => ?_⟩
  cases h with
  | drawn hlt => exact absurd hmax (Nat.not_le.mpr hlt)
  | simplest _ hp => exact hp

lemma Grammar.Selects.hasProduction (h : g.Selects maxDepth depth name (.ok p)) :
    g.HasProduction name p := by
  cases h with
  | drawn _ hp => exact hp
  | simplest _ hp => exact hp.hasProduction

lemma Grammar.Grows.append {front back : Form} {text other : String}
    (hfront : g.Grows maxDepth depth front text) (hback : g.Grows maxDepth depth back other) :
    g.Grows maxDepth depth (front ++ back) (text ++ other) := by
  obtain ⟨trees, rfl, htrees⟩ := hfront
  obtain ⟨others, rfl, hothers⟩ := hback
  refine ⟨trees.append others, trees.text_append others, ?_⟩
  rw [trees.replacements_append]
  exact List.forall_mem_append.mpr ⟨htrees, hothers⟩

lemma Grammar.grows_terminal (text : String) :
    g.Grows maxDepth depth [.terminal text] text :=
  ⟨.terminal text .nil, by simp [Trees.text, Trees.leaves], by simp [Trees.replacements]⟩

lemma Grammar.grows_nonterminal {text : String} (hselects : g.Selects maxDepth depth name (.ok p))
    (hdepth : depth ≤ hardLimit maxDepth) (h : g.Grows maxDepth (depth + 1) p.runs text) :
    g.Grows maxDepth depth [.nonterminal name] text := by
  obtain ⟨trees, rfl, htrees⟩ := h
  refine ⟨.node hselects.hasProduction trees .nil, by simp [Trees.text, Trees.leaves], ?_⟩
  have hall : ∀ r ∈ ⟨depth, name, p⟩ :: trees.replacements (depth + 1), g.Allows maxDepth r :=
    List.forall_mem_cons.mpr ⟨hselects.allows hdepth, htrees⟩
  simpa [Trees.replacements] using hall

lemma Grammar.grows_of_spells
    (hinner : ∀ other piece, inner other (.ok piece) →
      g.Grows maxDepth depth [.nonterminal other] piece)
    (h : List.Forall₂ (Symbol.Spells inner) form pieces) :
    g.Grows maxDepth depth form (String.join pieces) := by
  induction h with
  | nil => exact ⟨.nil, rfl, List.forall_mem_nil _⟩
  | @cons symbol piece form pieces hsymbol _ ih =>
    have hfront : g.Grows maxDepth depth [symbol] piece := by
      cases symbol with
      | terminal text =>
        obtain rfl : piece = text := hsymbol
        exact grows_terminal piece
      | nonterminal other => exact hinner other piece hsymbol
    simpa using hfront.append ih

/-- What comes of an expansion at a depth has a tree with its root there. -/
lemma Grammar.grows_of_gives {text : String} (hdepth : depth + left = hardLimit maxDepth + 1)
    (h : Gives (g.expandWithin chooser maxDepth left name) (.ok text)) :
    g.Grows maxDepth depth [.nonterminal name] text := by
  induction left generalizing depth name text with
  | zero =>
    rw [expandWithin] at h
    cases h.of_throw
  | succ left ih =>
    obtain rfl : depth = hardLimit maxDepth - left := by omega
    cases expands_of_gives h with
    | text hselects hpieces =>
      refine grows_nonterminal hselects (Nat.sub_le ..) ?_
      exact grows_of_spells (fun other piece hpiece => ih (by omega) hpiece) hpieces

/-- A sentence is the text of a derivation tree of the start symbol. No nonterminal lies deeper than
four times the depth below which alternatives are drawn (nor than this product of machine words,
which may be less), and from this depth on the first
alternative with the fewest nonterminals is taken. If every nonterminal has a rule then the search
for a derivation does not reject the sentence, whatever its limit. -/
theorem Grammar.sentence_grown (g : Grammar) (chooser : Chooser σ) (maxDepth : Nat) (state : σ)
    (text : String) (h : (g.sentence chooser maxDepth state).1 = .ok text) :
    (∃ tree : g.Trees [g.startSymbol], tree.text = text ∧
      ∀ r ∈ tree.replacements 0, g.Allows maxDepth r) ∧
    g.Generates text ∧
    (g.IsClosed → ∀ limit, (g.searchDerivation text limit).verdict ≠ .rejected) := by
  have hgives : Gives (g.expandWithin chooser maxDepth (hardLimit maxDepth + 1) g.start)
      (.ok text) := ⟨state, h⟩
  obtain ⟨tree, rfl, hallows⟩ := grows_of_gives (Nat.zero_add _) hgives
  refine ⟨⟨tree, rfl, hallows⟩, tree.generates, fun hclosed limit hrejected => ?_⟩
  exact not_generates_of_underived hclosed hrejected tree.generates

theorem Grammar.signed_sentence_grown :
    (Grammar.signed.sentence WordStream.chooser 1 (.ofList [0, 0, 4000000000])).1 = .ok "-0" ∧
      Grammar.signed.IsClosed ∧
      (∃ tree : Grammar.signed.Trees [Grammar.signed.startSymbol], tree.text = "-0" ∧
        ∀ r ∈ tree.replacements 0, Grammar.signed.Allows 1 r) ∧
      (Grammar.signed.searchDerivation "-0" 3).verdict ≠ .rejected := by
  have hsentence :
      (Grammar.signed.sentence WordStream.chooser 1 (.ofList [0, 0, 4000000000])).1 =
        .ok "-0" := by decide +kernel
  have hclosed : Grammar.signed.IsClosed := by decide +kernel
  obtain ⟨htree, -, haccepted⟩ := Grammar.sentence_grown _ _ _ _ _ hsentence
  exact ⟨hsentence, hclosed, htree, haccepted hclosed 3⟩

/-! ### Sentences that cannot be made -/

/-- Whether the start symbol and every nonterminal of an alternative have an alternative. -/
structure Grammar.IsExpandable (g : Grammar) : Prop where
  start : ∃ p, g.HasProduction g.start p
  nonterminals : ∀ ⦃name : String⦄ ⦃p : Production⦄, g.HasProduction name p →
    ∀ other ∈ p.nonterminals, ∃ q, g.HasProduction other q

lemma Grammar.HasProduction.isSome (h : g.HasProduction name p) :
    (g.alternatives? name).isSome = true := by
  obtain ⟨alternatives, halternatives, -⟩ := h
  rw [halternatives, Option.isSome_some]

lemma Grammar.IsExpandable.isClosed (hg : g.IsExpandable) : g.IsClosed := by
  obtain ⟨⟨p, hp⟩, hnonterminals⟩ := hg
  refine ⟨hp.isSome, fun name q hq other hother => ?_⟩
  obtain ⟨r, hr⟩ := hnonterminals hq other hother
  exact hr.isSome

/-- An alternative is found for a nonterminal that has one. -/
lemma Grammar.HasProduction.not_selects_error {fault : SentenceFault} (h : g.HasProduction name p) :
    ¬g.Selects maxDepth depth name (.error fault) := by
  obtain ⟨alternatives, halternatives, hmem⟩ := h
  intro hselects
  cases hselects with
  | undefined hnone => cases halternatives.symm.trans hnone
  | barren hnone =>
    cases halternatives.symm.trans hnone
    cases hmem

lemma Grammar.IsExpandable.fault_of_gives {fault : SentenceFault} (hg : g.IsExpandable)
    (hname : ∃ p, g.HasProduction name p)
    (h : Gives (g.expandWithin chooser maxDepth left name) (.error fault)) :
    fault = .recursionLimit (hardLimit maxDepth) := by
  induction left generalizing name with
  | zero =>
    rw [expandWithin] at h
    exact Except.error.inj h.of_throw
  | succ left ih =>
    obtain ⟨p, hp⟩ := hname
    cases expands_of_gives h with
    | fault hselects => exact absurd hselects hp.not_selects_error
    | below hselects hother hfault =>
      refine ih (hg.nonterminals hselects.hasProduction _ ?_) hfault
      exact Form.mem_nonterminals.mpr hother

/-- Only the bound on the depth keeps a sentence from being made if every nonterminal has an
alternative. -/
lemma Grammar.IsExpandable.fault_eq {state : σ} {fault : SentenceFault} (hg : g.IsExpandable)
    (h : (g.sentence chooser maxDepth state).1 = .error fault) :
    fault = .recursionLimit (hardLimit maxDepth) :=
  hg.fault_of_gives hg.start ⟨state, h⟩

end GrammarTrace
