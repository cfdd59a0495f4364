import CMakeManual.Proofs.Manual.Resolution

/-! What the requiredness policy decides. Two bodies read side by side, one under the policy that
looks at validations and one under the policy that never demands a key, assign the same variables at
every command: a validation is passed over by the one as evidence and by the other as a command
without a role. So the policy shows in the demanded keys and nowhere else. -/
namespace CMakeManual.Manual
open Text Script Vocabulary

def KeyList.undemanding (list : KeyList) : KeyList := { list with required := [] }

def KeywordSpec.undemanding (spec : KeywordSpec) : KeywordSpec :=
  { spec with
    options := spec.options.undemanding
    singleValue := spec.singleValue.undemanding
    multiValue := spec.multiValue.undemanding }

/-- The same callable with no key demanded. -/
def Callable.undemanding (callable : Callable) : Callable :=
  { callable with specs := callable.specs.map KeywordSpec.undemanding }

def Resolution.undemanding (resolution : Resolution) : Resolution :=
  { resolution with specs := resolution.specs.map KeywordSpec.undemanding }

theorem undemanding_append (r t : Resolution) :
    (r.append t).undemanding = r.undemanding.append t.undemanding := by
  simp only [Resolution.undemanding, Resolution.append, List.map_append]

section Beside
variable {c d : Context} (h : c.assigned = d.assigned) (policy : Requiredness)
include h

/-- The two contexts keep agreeing on what is assigned. -/
theorem assigned_next_never (command : Invocation) :
    (c.next .never command).assigned = (d.next policy command).assigned := by
  rcases command_cases command with ⟨validated, hc⟩ | hc | hc | hc
  · rw [(hc .never c).2, (hc policy d).2]
    cases policy <;> exact h
  · rw [(hc .never c).2, (hc policy d).2]
    unfold Context.assign
    split
    · exact h
    · simp only [h]
  · rw [(hc .never c).2, (hc policy d).2, h]
  · rw [(hc .never c).2, (hc policy d).2, h]

theorem keyList_never (variablePrefix argument : String) :
    c.keyList .never variablePrefix argument =
      (d.keyList policy variablePrefix argument).undemanding := by
  have hkeys : c.keys argument = d.keys argument := by
    unfold Context.keys
    rw [h]
  have hnone : (d.keys argument).1.filter
      (Requiredness.requires .never c.evidence variablePrefix) = [] := by
    rw [List.filter_eq_nil_iff]
    intro key _
    simp [Requiredness.requires]
  rw [Context.keyList, hkeys, hnone]
  rfl

theorem resolveCall_never (command : Invocation) :
    c.resolveCall .never command = (d.resolveCall policy command).undemanding := by
  unfold Context.resolveCall
  rcases spec?_cases command with hs | ⟨variablePrefix, options, single, multi, hs⟩
  · rw [hs, hs]
    rfl
  · rw [hs, hs]
    simp only [keyList_never h policy]
    rfl

theorem resolve_never (command : Invocation) :
    c.resolve .never command = (d.resolve policy command).undemanding := by
  rcases resolve_cases command with hc | hc
  · rw [hc, hc]
    rfl
  · rw [hc, hc, resolveCall_never h policy]

end Beside

theorem resolveFrom_never {c d : Context} (h : c.assigned = d.assigned) (policy : Requiredness)
    (commands : List Invocation) :
    resolveFrom .never c commands = (resolveFrom policy d commands).undemanding := by
  induction commands generalizing c d with
  | nil => rfl
  | cons command rest ih =>
    rw [resolveFrom, resolveFrom, undemanding_append, resolve_never h policy,
      ih (assigned_next_never h policy command)]

theorem resolution_never (policy : Requiredness) (b : Block) (nodes : List Node) :
    b.resolution .never nodes = (b.resolution policy nodes).undemanding :=
  resolveFrom_never rfl policy (invocations (b.body nodes))

/-- Turning demands off empties the lists of demanded keys of every callable; everything else about
the callables, and everything reported on the way, stays as it is. -/
theorem never_changes_demands_only (nodes : List Node) :
    callables .never nodes = (callables .byValidationCall nodes).map Callable.undemanding ∧
    events .never nodes = events .byValidationCall nodes := by
  constructor
  · rw [callables, callables, List.map_map]
    apply List.map_congr_left
    intro b _
    rw [Function.comp_apply, Block.callable, Block.callable,
      resolution_never .byValidationCall]
    rfl
  · have hreported : ∀ b : Block, (b.resolution .never nodes).events =
        (b.resolution .byValidationCall nodes).events := by
      intro b
      rw [resolution_never .byValidationCall]
      rfl
    simp only [events, hreported]

end CMakeManual.Manual
