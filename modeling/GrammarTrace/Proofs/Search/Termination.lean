import Mathlib.Data.Set.Finite.Basic
import GrammarTrace.Proofs.Search.Soundness

/-!
# Searches that come to an end

A position terminates if no way leads on from it forever (`SearchSpace.Terminates`). A search that
starts there takes up every choice only finitely often and every alternative leads it along finitely
many positions, so it makes finitely many moves (`SearchSpace.Terminates.acc_move`) and ends below
some limit (`SearchSpace.Terminates.exists_ends_below`).
-/

namespace GrammarTrace

/-! ### Relations without cycles -/

section Relations

variable {α : Type} {r : α → α → Prop}

/-- A relation that can be followed through finitely many elements only, and never back to one that
has been passed, cannot be followed forever. -/
lemma wellFounded_of_acyclic (inner : List α) (hinner : ∀ ⦃a b c⦄, r a b → r b c → b ∈ inner)
    (hacyclic : ∀ a, ¬Relation.TransGen r a a) : WellFounded (flip r) := by
  -- an element from which nothing leads on, or only to a single further one
  have hlast : ∀ ⦃a b⦄, r a b → b ∉ inner → Acc (flip r) b := by
    intro a b hab hb
    exact ⟨_, fun c hbc => absurd (hinner hab hbc) hb⟩
  have hfinite : Finite {a // a ∈ inner} := (List.finite_toSet inner).to_subtype
  let below : {a // a ∈ inner} → {a // a ∈ inner} → Prop := fun b a => Relation.TransGen r a b
  have htrans : IsTrans _ below := ⟨fun _ _ _ hab hbc => hbc.trans hab⟩
  have hirrefl : Std.Irrefl below := ⟨fun a => hacyclic a⟩
  have hbelow : WellFounded below := Finite.wellFounded_of_trans_of_irrefl below
  have hmem : ∀ a : {a // a ∈ inner}, Acc (flip r) a.1 := by
    intro a
    induction a using hbelow.induction with
    | _ a ih =>
      refine ⟨_, fun b hab => ?_⟩
      by_cases hb : b ∈ inner
      · exact ih ⟨b, hb⟩ (.single hab)
      · exact hlast hab hb
  refine ⟨fun a => ⟨_, fun b hab => ?_⟩⟩
  by_cases hb : b ∈ inner
  · exact hmem ⟨b, hb⟩
  · exact hlast hab hb

/-- A rank that decreases along a relation excludes cycles. -/
lemma not_transGen_of_rank (rank : α → Nat) (hrank : ∀ a b, r a b → rank b < rank a) (a : α) :
    ¬Relation.TransGen r a a := by
  have hlt : ∀ b, Relation.TransGen r a b → rank b < rank a := by
    intro b h
    induction h with
    | single hab => exact hrank _ _ hab
    | tail _ hbc ih => exact Nat.lt_trans (hrank _ _ hbc) ih
  exact fun hcycle => Nat.lt_irrefl _ (hlt a hcycle)

end Relations

/-! ### Positions -/

variable {P A : Type}

/-- Whether a search can go on from one position to another, trying all alternatives. -/
inductive SearchSpace.LeadsTo (space : SearchSpace P A) : P → P → Prop where
  | forced {p next : P} {action : Action} (h : space.prospect p = .forced action next) :
      LeadsTo space p next
  | choice {p : P} {first a : A} {others : List A} (h : space.prospect p = .choice first others)
      (ha : a ∈ first :: others) : LeadsTo space p (space.take p a)

/-- Whether no way leads on from a position forever. -/
def SearchSpace.Terminates (space : SearchSpace P A) (p : P) : Prop := Acc (flip space.LeadsTo) p

/-- Whether a search makes finitely many moves. -/
def SearchSpace.Halts (space : SearchSpace P A) (s : SearchState P A) : Prop :=
  Acc (flip space.Move) s

/-- Whether a search that comes to a dead end makes finitely many moves from a stack of choices. -/
def SearchSpace.Unwinds (space : SearchSpace P A) (choices : ChoiceStack P A) : Prop :=
  ∀ ⦃p reason⦄, space.prospect p = .deadEnd reason → ∀ trace, space.Halts ⟨p, choices, trace⟩

variable {space : SearchSpace P A} {s next : SearchState P A} {p : P} {first : A}
  {others : List A} {choices : ChoiceStack P A} {c : Choice P A} {trace : Trace}

lemma SearchSpace.unwinds_nil : space.Unwinds [] := by
  intro p reason hp trace
  refine ⟨_, fun next h => ?_⟩
  cases h with
  | forced h | choose h => rw [hp] at h; cases h
  | resume _ hstack => simp at hstack

/-- A choice is taken up again once for every alternative that is left. -/
lemma SearchSpace.Unwinds.cons (hchoices : space.Unwinds choices)
    (halternatives : ∀ a ∈ c.alternatives, ∀ stack, space.Unwinds stack → ∀ trace,
      space.Halts ⟨space.take c.snapshot a, stack, trace⟩) : space.Unwinds (c :: choices) := by
  -- by induction on the number of alternatives that are left
  induction hleft : c.alternatives.length - c.cursor using Nat.strong_induction_on
    generalizing c with
  | _ left ih =>
    intro p reason hp trace
    refine ⟨_, fun next h => ?_⟩
    cases h with
    | forced h | choose h => rw [hp] at h; cases h
    | @resume _ r exhausted older _ hstack hall =>
      cases exhausted with
      | nil =>
        obtain ⟨rfl, rfl⟩ := List.cons.inj hstack
        have hadvance : space.Unwinds (r.choice.advance :: choices) := by
          refine ih (r.choice.alternatives.length - (r.choice.cursor + 1)) ?_ halternatives rfl
          have := r.untried
          omega
        exact halternatives _ r.alternative_mem _ hadvance _
      | cons d exhausted =>
        -- the choice is left for good, and the search goes on as if it had not been there
        obtain ⟨rfl, hrest⟩ := List.cons.inj hstack
        have hmove := SearchSpace.Move.resume
          (s := ⟨p, choices, trace.push (space.abandonStep c)⟩) hp hrest (List.forall_mem_cons.mp hall).2
        exact (hchoices hp (trace.push (space.abandonStep c))).inv hmove

/-- A search makes finitely many moves from a position that terminates, whatever choices have been
made before, if it does so from them. -/
lemma SearchSpace.Terminates.halts (hp : space.Terminates p) (hchoices : space.Unwinds choices)
    (trace : Trace) : space.Halts ⟨p, choices, trace⟩ := by
  induction hp generalizing choices trace with
  | intro p _ ih =>
    refine ⟨_, fun next h => ?_⟩
    cases h with
    | forced h => exact ih _ (.forced h) hchoices _
    | @choose first others h =>
      refine ih _ (.choice h List.mem_cons_self) ?_ _
      split_ifs
      · exact hchoices
      · exact hchoices.cons fun a ha stack hstack trace => ih _ (.choice h ha) hstack trace
    | resume h hstack hall => exact (hchoices h trace).inv (.resume h hstack hall)

/-! ### Runs -/

lemma SearchSpace.Halts.exists_ends_below (hs : space.Halts s) :
    ∃ limit last, space.Reaches limit s last ∧ space.Ends limit last (space.run limit s) ∧
      last.trace.size < limit := by
  induction hs with
  | intro s _ ih =>
    cases hproceed : space.proceed s (space.prospect s.position) with
    | ended trace =>
      have hgo : ¬(s.trace.size + 1 ≤ s.trace.size ∧
          (space.prospect s.position).isGoal = false) := fun h => Nat.not_succ_le_self _ h.1
      refine ⟨s.trace.size + 1, s, .refl, ?_, Nat.lt_succ_self _⟩
      rw [run_of_ended hgo hproceed]
      exact ends_of_proceed hproceed
    | running next =>
      have hmove := move_of_proceed hproceed
      obtain ⟨limit, last, hreach, hends, hlast⟩ := ih next hmove
      have hbelow : s.trace.size < limit := by
        have hgrows := (hmove.grows.trans hreach.grows).length_le
        rw [Trace.length_toList, Trace.length_toList] at hgrows
        exact Nat.lt_of_le_of_lt hgrows hlast
      have hgo : ¬(limit ≤ s.trace.size ∧ (space.prospect s.position).isGoal = false) :=
        fun h => Nat.not_le.mpr hbelow h.1
      refine ⟨limit, last, .head ⟨hbelow, hmove⟩ hreach, ?_, hlast⟩
      rw [run_of_running hgo hproceed]
      exact hends

/-- A search from a position that terminates ends below some limit. -/
theorem SearchSpace.Terminates.exists_ends_below (hp : space.Terminates p) (trace : Trace) :
    ∃ limit last, space.Reaches limit ⟨p, [], trace⟩ last ∧
      space.Ends limit last (space.run limit ⟨p, [], trace⟩) ∧ last.trace.size < limit :=
  (hp.halts unwinds_nil trace).exists_ends_below

end GrammarTrace
