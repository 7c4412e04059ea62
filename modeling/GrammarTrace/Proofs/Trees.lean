import GrammarTrace.Proofs.Derivability

/-!
# Derivation trees

A derivation tree says of every nonterminal which alternative of its rule replaces it. The trees of
the symbols of a form stand side by side, and the trees below a nonterminal are those of the symbols
of its alternative, so that a tree is one of the grammar by construction. What stands at the leaves
is derived from the form (`Grammar.Trees.derives`).
-/

namespace GrammarTrace

/-- Derivation trees of the symbols of a form, side by side. -/
inductive Grammar.Trees (g : Grammar) : Form → Type where
  | nil : Trees g []
  | terminal (text : String) {form : Form} (rest : Trees g form) :
      Trees g (.terminal text :: form)
  | node {name : String} {p : Production} {form : Form} (hp : g.HasProduction name p)
      (children : Trees g p.runs) (rest : Trees g form) : Trees g (.nonterminal name :: form)

/-- A place in a derivation tree where a nonterminal is replaced. -/
structure Replacement where
  depth : Nat
  name : String
  production : Production

namespace Grammar.Trees

variable {g : Grammar} {form : Form}

/-- The terminals at the leaves. -/
def leaves : {form : Form} → g.Trees form → Form
  | _, nil => []
  | _, terminal text rest => .terminal text :: rest.leaves
  | _, node _ children rest => children.leaves ++ rest.leaves

/-- The text at the leaves. -/
def text (trees : g.Trees form) : String := trees.leaves.text

/-- The replacements in trees whose roots are at a depth. -/
def replacements : {form : Form} → Nat → g.Trees form → List Replacement
  | _, _, nil => []
  | _, depth, terminal _ rest => rest.replacements depth
  | _, depth, @node _ name p _ _ children rest =>
    ⟨depth, name, p⟩ :: children.replacements (depth + 1) ++ rest.replacements depth

/-- The trees of two forms side by side. -/
def append {right : Form} : {left : Form} → g.Trees left → g.Trees right → g.Trees (left ++ right)
  | _, nil, others => others
  | _, terminal text rest, others => terminal text (rest.append others)
  | _, node hp children rest, others => node hp children (rest.append others)

section

variable {left right : Form} (trees : g.Trees left) (others : g.Trees right)

lemma leaves_append : (trees.append others).leaves = trees.leaves ++ others.leaves := by
  induction trees with
  | nil => rfl
  | terminal text rest ih => exact congrArg (Symbol.terminal text :: ·) ih
  | node hp children rest _ ih => simpa [append, leaves] using ih

lemma text_append : (trees.append others).text = trees.text ++ others.text := by
  rw [text, leaves_append, Form.text_append, text, text]

lemma replacements_append (depth : Nat) : (trees.append others).replacements depth =
    trees.replacements depth ++ others.replacements depth := by
  induction trees generalizing depth with
  | nil => rfl
  | terminal text rest ih => exact ih depth
  | node hp children rest _ ih => simpa [append, replacements] using ih depth

end

lemma isTerminal_leaves (trees : g.Trees form) : trees.leaves.IsTerminal := by
  induction trees with
  | nil => simp [leaves]
  | terminal text rest ih => simpa [leaves] using ih
  | node hp children rest ihchildren ihrest =>
    simpa [leaves] using ⟨ihchildren, ihrest⟩

/-- The terminals at the leaves are derived. -/
theorem derives (trees : g.Trees form) : g.Derives .run form trees.leaves := by
  induction trees with
  | nil => exact .refl
  | @terminal text form rest ih => simpa [leaves] using ih.context [.terminal text] []
  | @node name p form hp children rest ihchildren ihrest =>
    have hroot : g.Derives .run (.nonterminal name :: form) (p.runs ++ form) :=
      .single (.intro [] form hp)
    have hbelow : g.Derives .run (p.runs ++ form) (children.leaves ++ form) := by
      simpa using ihchildren.context [] form
    have hbeside : g.Derives .run (children.leaves ++ form) (children.leaves ++ rest.leaves) := by
      simpa using ihrest.context children.leaves []
    exact (hroot.trans hbelow).trans hbeside

/-- The text of a tree of the start symbol is generated. -/
lemma generates (tree : g.Trees [g.startSymbol]) : g.Generates tree.text :=
  ⟨tree.leaves, tree.derives, tree.isTerminal_leaves, rfl⟩

end Grammar.Trees

end GrammarTrace
