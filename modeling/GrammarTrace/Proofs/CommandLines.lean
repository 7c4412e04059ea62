import Mathlib.Tactic.Common
import GrammarTrace.CommandLine.Reading

/-!
# The numbers of a command line

A command line is refused if one of its numbers does not fit into a machine word, or if it has a
seed without anything to use it for. So the options that are read have none of these faults
(`CommandLine.inRange_of_read`).
-/

namespace GrammarTrace

/-- Options whose numbers fit into machine words, with a seed only where sentences are made. -/
structure Options.InRange (o : Options) : Prop where
  maxSteps : ∀ steps ∈ o.maxSteps, steps < UInt64.size
  generate : ∀ count ∈ o.generate, count < UInt32.size
  seed : ∀ seed ∈ o.seed, seed < UInt64.size
  seeded : o.generate = none → o.seed = none

namespace CommandLine

/-- Arguments whose numbers fit into machine words. -/
structure Draft.InRange (d : Draft) : Prop where
  maxSteps : ∀ steps ∈ d.maxSteps, steps < UInt64.size
  generate : ∀ count ∈ d.generate, count < UInt32.size
  seed : ∀ seed ∈ d.seed, seed < UInt64.size

/-- Whether a result has a property unless it is a fault. -/
def Yields {α : Type} (Q : α → Prop) (result : Except UsageFault α) : Prop :=
  ∀ a, result = .ok a → Q a

variable {α β : Type} {Q : α → Prop} {R : β → Prop} {result : Except UsageFault α}
  {f : α → Except UsageFault β} {a : α} {fault : UsageFault} {bound n : Nat} {text : String}
  {d : Draft} {p : ReadSoFar}

lemma Yields.ok (h : Q a) : Yields Q (.ok a) := by
  rintro b ⟨⟩
  exact h

lemma Yields.error : Yields Q (.error fault) := nofun

lemma Yields.bind (h : Yields Q result) (hf : ∀ a, Q a → Yields R (f a)) :
    Yields R (result >>= f) := by
  cases result with
  | error fault => exact .error
  | ok a => exact hf a (h a rfl)

/-! ### Numbers -/

lemma lt_of_unsignedBelow? (h : n ∈ unsignedBelow? bound text) : n < bound := by
  rw [unsignedBelow?, Option.mem_def, Option.filter_eq_some_iff] at h
  exact of_decide_eq_true h.2

lemma lt_of_signedBelow? (hbound : 0 < bound) (h : n ∈ signedBelow? bound text) : n < bound := by
  rw [signedBelow?] at h
  split at h
  · rw [Option.mem_def, Option.filter_eq_some_iff] at h
    rwa [of_decide_eq_true h.2]
  · exact lt_of_unsignedBelow? h

lemma once_yields {current read : Option α} : Yields (· = read) (once current read fault) := by
  rcases current with _ | _ <;> rcases read with _ | _
  · exact .error
  · exact .ok rfl
  · exact .error
  · exact .error

/-! ### Arguments -/

lemma Draft.InRange.assign (h : d.InRange) (setting : Setting) (value : String) :
    Yields Draft.InRange (d.assign setting value) := by
  cases setting with
  | strategy | start | format =>
    exact once_yields.bind fun _ _ => .ok ⟨h.maxSteps, h.generate, h.seed⟩
  | maxSteps =>
    refine once_yields.bind ?_
    rintro _ rfl
    exact .ok ⟨fun _ => lt_of_unsignedBelow?, h.generate, h.seed⟩
  | generate =>
    refine once_yields.bind ?_
    rintro _ rfl
    exact .ok ⟨h.maxSteps, fun _ => lt_of_signedBelow? (by decide), h.seed⟩
  | seed =>
    refine once_yields.bind ?_
    rintro _ rfl
    exact .ok ⟨h.maxSteps, h.generate, fun _ => lt_of_unsignedBelow?⟩

lemma Draft.InRange.turnOn (h : d.InRange) (switch : Switch) :
    Yields Draft.InRange (d.turnOn switch) := by
  cases switch with
  | strict =>
    rw [Draft.turnOn]
    split_ifs
    · exact .error
    · exact .ok ⟨h.maxSteps, h.generate, h.seed⟩
  | help | version => exact .error

/-- A command line that has been read in part, with numbers that fit into machine words. -/
def ReadSoFar.InRange (p : ReadSoFar) : Prop := p.draft.InRange

namespace ReadSoFar.InRange

lemma settle (h : p.InRange) : Yields ReadSoFar.InRange p.settle := by
  rw [ReadSoFar.settle]
  split
  · exact .ok h
  · exact .error
  · exact (Draft.InRange.assign h _ _).bind fun _ hdraft => .ok hdraft
  · split_ifs
    · exact .error
    · exact .ok ⟨h.maxSteps, h.generate, h.seed⟩
  · exact .ok ⟨h.maxSteps, h.generate, h.seed⟩

lemma readSetting (h : p.InRange) (setting : Setting) (attached : Option String) :
    Yields ReadSoFar.InRange (p.readSetting setting attached) := by
  refine h.settle.bind fun q hq => ?_
  cases attached with
  | none => exact .ok hq
  | some value => exact (Draft.InRange.assign hq setting value).bind fun _ hdraft => .ok hdraft

lemma readSwitch (h : p.InRange) (switch : Switch) :
    Yields ReadSoFar.InRange (p.readSwitch switch) :=
  h.settle.bind fun _ hq => (Draft.InRange.turnOn hq switch).bind fun _ hdraft => .ok hdraft

lemma readNamed (h : p.InRange) (name : String) (attached : Option String) :
    Yields ReadSoFar.InRange (p.readNamed name attached) := by
  unfold ReadSoFar.readNamed
  split
  · exact .error
  · exact .error
  · exact h.readSwitch _
  · exact h.readSetting _ _

lemma readLetters (h : p.InRange) (letters : List Char) :
    Yields ReadSoFar.InRange (p.readLetters letters) := by
  induction letters generalizing p with
  | nil => exact .ok h
  | cons letter rest ih =>
    unfold ReadSoFar.readLetters
    split
    · exact .error
    · exact (h.readSwitch _).bind fun _ hq => ih hq
    · exact h.readSetting _ _
    · exact h.readSetting _ _
    · exact h.readSetting _ _

lemma readPlain (h : p.InRange) (argument : String) :
    Yields ReadSoFar.InRange (p.readPlain argument) := by
  rw [ReadSoFar.readPlain]
  split
  · exact .ok h
  · refine h.settle.bind fun q hq => ?_
    split_ifs
    · exact .ok hq
    · exact .ok hq

lemma readText (h : p.InRange) (argument : String) :
    Yields ReadSoFar.InRange (p.readText argument) := by
  rw [ReadSoFar.readText]
  split
  · exact .ok h
  · exact h.readPlain argument

lemma readArgument (h : p.InRange) (argument : String) :
    Yields ReadSoFar.InRange (p.readArgument argument) := by
  rw [ReadSoFar.readArgument]
  split_ifs
  · exact h.readPlain argument
  · split
    · exact .ok h
    · dsimp only
      split
      · exact h.readNamed _ _
      · exact h.readNamed _ _
    · exact h.readLetters _
    · exact h.readText argument

lemma readAll (h : p.InRange) (arguments : List String) :
    Yields ReadSoFar.InRange (arguments.foldlM ReadSoFar.readArgument p) := by
  induction arguments generalizing p with
  | nil => exact .ok h
  | cons argument arguments ih =>
    rw [List.foldlM_cons]
    exact (h.readArgument argument).bind fun _ hq => ih hq

end ReadSoFar.InRange

lemma Draft.InRange.finish (h : d.InRange) : Yields Options.InRange d.finish := by
  rw [Draft.finish]
  split
  · exact .error
  · split_ifs with hseed
    · exact .error
    · refine .ok ⟨h.maxSteps, h.generate, h.seed, fun hgenerate => ?_⟩
      rw [show d.generate = none from hgenerate] at hseed
      simpa using hseed

/-- The numbers of a command line that is accepted fit into machine words. -/
theorem inRange_of_read {arguments : List String} {o : Options} (h : read arguments = .ok o) :
    o.InRange := by
  have hstart : ReadSoFar.InRange {} := ⟨nofun, nofun, nofun⟩
  exact ((hstart.readAll arguments).bind fun _ hp => hp.settle.bind fun _ hq =>
    Draft.InRange.finish hq) o h

end CommandLine

end GrammarTrace
