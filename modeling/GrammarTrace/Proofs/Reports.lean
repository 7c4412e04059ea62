import GrammarTrace.Proofs.JsonText
import GrammarTrace.Report.Document
import Mathlib.Data.List.Basic

/-!
# Reports lose nothing

The report of a run determines the input, the strategy and every step of the trace, and no report is
continued to another one. Reports can therefore be told apart also when they are written one after
the other (`Report.text_unambiguous`).
-/

namespace GrammarTrace

/-! ### Values of the parts of a run -/

/-- The action with a kind and what it is about. -/
def Action.ofFields? : String → List (String × Json) → Option Action
  | "start", [] => some .start
  | "expand", [(_, .string nonterminal), (_, .string production)] =>
    some (.expand nonterminal production)
  | "consume", [(_, .string terminal)] => some (.consume terminal)
  | "normalize", [(_, .string terminal), (_, .string nonterminal)] =>
    some (.normalize terminal nonterminal)
  | "reduce", [(_, .string nonterminal), (_, .string production)] =>
    some (.reduce nonterminal production)
  | "retry", [(_, .string nonterminal), (_, .string production)] =>
    some (.retry nonterminal production)
  | "abandon_expansion", [(_, .string nonterminal)] => some (.abandonExpansion nonterminal)
  | "abandon_reduction", [(_, .string form)] => some (.abandonReduction form)
  | "success", [] => some .success
  | "undefined_nonterminal", [(_, .string nonterminal)] => some (.undefinedNonterminal nonterminal)
  | "unexpected_end", [(_, .string expected)] => some (.unexpectedEnd expected)
  | "mismatch", [(_, .string expected), (_, .string found)] =>
    found.toList.head?.map (.mismatch expected)
  | "leftover_input", [(_, .string remaining)] => some (.leftoverInput remaining)
  | "no_reductions", [] => some .noReductions
  | "alternatives_exhausted", [] => some .alternativesExhausted
  | "inconclusive", [] => some .inconclusive
  | "malformed_input", [(_, .number position)] => some (.malformedInput position)
  | "step_limit", [(_, .number limit)] => some (.stepLimit limit)
  | _, _ => none

lemma Action.ofFields?_fields (action : Action) :
    ofFields? action.kind action.fields = some action := by
  cases action with
  | mismatch expected found =>
    change (String.singleton found).toList.head?.map (mismatch expected) = _
    rw [String.toList_singleton]
    rfl
  | _ => rfl

lemma Action.toJson_injective : Function.Injective Action.toJson := by
  intro action other h
  simp only [toJson, Json.object.injEq, List.cons.injEq, Prod.mk.injEq, true_and,
    Json.string.injEq] at h
  have hread := ofFields?_fields action
  rw [h.1, h.2, ofFields?_fields] at hread
  exact (Option.some.inj hread).symm

lemma Symbol.toJson_injective : Function.Injective Symbol.toJson := by
  intro symbol other h
  cases symbol with
  | terminal text =>
    cases other with
    | terminal text' => simpa [toJson] using h
    | nonterminal name' => simp [toJson] at h
  | nonterminal name =>
    cases other with
    | terminal text' => simp [toJson] at h
    | nonterminal name' => simpa [toJson] using h

lemma Span.toJson_injective : Function.Injective Span.toJson := by
  rintro ⟨start, stop⟩ ⟨start', stop'⟩ h
  simpa [toJson] using h

/-- Whether an optional field is given, and what it holds, can be read off the list of it. -/
lemma injective_map_toList {α β : Type} {write : α → β} (hwrite : Function.Injective write) :
    Function.Injective fun a : Option α => a.toList.map write := by
  intro a b h
  cases a with
  | none =>
    cases b with
    | none => rfl
    | some b => simp at h
  | some a =>
    cases b with
    | none => simp at h
    | some b => simpa [hwrite.eq_iff] using h

lemma Json.ofOption_injective {α : Type} {write : α → Json} (hwrite : Function.Injective write)
    (hnull : ∀ a, write a ≠ .null) : Function.Injective (ofOption write) := by
  intro a b h
  cases a with
  | none =>
    cases b with
    | none => rfl
    | some b => exact absurd h.symm (hnull b)
  | some a =>
    cases b with
    | none => exact absurd h (hnull a)
    | some b => exact congrArg some (hwrite h)

lemma Candidate.toJson_injective : Function.Injective Candidate.toJson := by
  rintro ⟨nonterminal, production, span⟩ ⟨nonterminal', production', span'⟩ h
  simp only [toJson, List.cons_append, List.nil_append, Json.object.injEq, List.cons.injEq,
    Prod.mk.injEq, Json.string.injEq, true_and] at h
  obtain ⟨rfl, rfl, hspan⟩ := h
  have hfield : Function.Injective fun span : Span => ("span", span.toJson) :=
    fun _ _ hspan => Span.toJson_injective (Prod.mk.inj hspan).2
  rw [injective_map_toList hfield hspan]

/-- A step and its number can be read off their value. -/
lemma Step.toJson_injective : Function.Injective fun step : Step × Nat => step.1.toJson step.2 := by
  rintro ⟨⟨action, form, remaining, candidates, selected, backtrackTo, success⟩, id⟩
    ⟨⟨action', form', remaining', candidates', selected', backtrackTo', success'⟩, id'⟩ h
  simp only [toJson, List.cons_append, List.nil_append, Json.object.injEq, List.cons.injEq,
    Prod.mk.injEq, Json.number.injEq, Json.array.injEq, true_and] at h
  obtain ⟨rfl, haction, hform, -, h⟩ := h
  -- the fields after the optional one are as many in both objects
  obtain ⟨hremaining, h⟩ := List.append_inj' h rfl
  simp only [List.cons.injEq, Prod.mk.injEq, Json.array.injEq, true_and, and_true] at h
  obtain ⟨hcandidates, hselected, hbacktrack, hsuccess⟩ := h
  have hfield : Function.Injective fun text : String => ("remaining_input", Json.string text) :=
    fun _ _ htext => Json.string.inj (Prod.mk.inj htext).2
  obtain rfl := Action.toJson_injective haction
  obtain rfl := Symbol.toJson_injective.list_map hform
  obtain rfl := injective_map_toList hfield hremaining
  obtain rfl := Candidate.toJson_injective.list_map hcandidates
  obtain rfl := Json.ofOption_injective Candidate.toJson_injective (fun _ => nofun) hselected
  obtain rfl := Json.ofOption_injective (fun _ _ => Json.number.inj) (fun _ => nofun) hbacktrack
  obtain rfl := Json.ofOption_injective (fun _ _ => Json.bool.inj) (fun _ => nofun) hsuccess
  rfl

lemma Strategy.name_injective : Function.Injective Strategy.name := by
  intro strategy other h
  cases strategy with
  | topDown =>
    cases other with
    | topDown => rfl
    | bottomUp => simp [name] at h
  | bottomUp =>
    cases other with
    | topDown => simp [name] at h
    | bottomUp => rfl

/-! ### Reports -/

/-- What a report is about. -/
structure Report where
  input : String
  strategy : Strategy
  trace : Trace
deriving DecidableEq, Repr

namespace Report

/-- The text of a report. -/
def text (r : Report) : String := r.trace.document r.input r.strategy

variable {r r' : Report} {rest rest' : List Char} {reports reports' : List Report}

lemma toJson_inj (h : r.trace.toJson r.input r.strategy = r'.trace.toJson r'.input r'.strategy) :
    r = r' := by
  obtain ⟨input, strategy, ⟨steps⟩⟩ := r
  obtain ⟨input', strategy', ⟨steps'⟩⟩ := r'
  simp only [Trace.toJson, Json.object.injEq, List.cons.injEq, Prod.mk.injEq, Json.string.injEq,
    Json.array.injEq, true_and, and_true] at h
  obtain ⟨rfl, hstrategy, -, hsteps⟩ := h
  obtain rfl := Strategy.name_injective hstrategy
  have hnumbered := congrArg (List.map Prod.fst) (Step.toJson_injective.list_map hsteps)
  rw [List.zipIdx_map_fst, List.zipIdx_map_fst] at hnumbered
  obtain rfl := Array.toList_inj.mp hnumbered
  rfl

lemma toList_text (r : Report) :
    r.text.toList = (r.trace.toJson r.input r.strategy).layout 0 ++ ['\n'] := by
  simp [text, Trace.document, Json.text]

/-- A report and what follows it can be told apart. -/
lemma text_append_inj (h : r.text.toList ++ rest = r'.text.toList ++ rest') :
    r = r' ∧ rest = rest' := by
  simp only [toList_text, List.append_assoc, List.singleton_append] at h
  have hend : ∀ rest, Json.EndsNumber ('\n' :: rest) := Json.endsNumber_cons (by decide)
  obtain ⟨hvalue, hrest⟩ := Json.layout_append_inj 0 _ _ (hend rest) (hend rest') h
  exact ⟨toJson_inj hvalue, (List.cons.inj hrest).2⟩

lemma join_text_inj
    (h : (reports.map text).flatMap String.toList = (reports'.map text).flatMap String.toList) :
    reports = reports' := by
  induction reports generalizing reports' with
  | nil =>
    cases reports' with
    | nil => rfl
    | cons r' reports' => simp [toList_text] at h
  | cons r reports ih =>
    cases reports' with
    | nil => simp [toList_text] at h
    | cons r' reports' =>
      obtain ⟨rfl, htail⟩ := text_append_inj h
      rw [ih htail]

/-- Reports with the same text are about the same run, and a report that begins with another one is
the same report. A text that consists of any number of reports determines all of them. -/
theorem text_unambiguous :
    Function.Injective text ∧
    (∀ r r' : Report, r.text.toList <+: r'.text.toList ↔ r = r') ∧
    Function.Injective fun reports : List Report => String.join (reports.map text) := by
  refine ⟨fun r r' h => ?_, fun r r' => ⟨?_, ?_⟩, fun reports reports' h => ?_⟩
  · exact (text_append_inj (congrArg (String.toList · ++ []) h)).1
  · rintro ⟨tail, htail⟩
    rw [← List.append_nil r'.text.toList] at htail
    exact (text_append_inj htail).1
  · rintro rfl
    exact List.prefix_rfl
  · have hlist := congrArg String.toList h
    rw [String.toList_join, String.toList_join] at hlist
    exact join_text_inj hlist

end Report

end GrammarTrace
