import CMakeManual.Proofs.Manual.Balance
import CMakeManual.Proofs.Manual.Ranges
import Mathlib.Data.List.Forall2

/-! How keyword arguments are resolved. What one command does is said once, in `command_cases`, for
every policy and context. So a body that starts in a wider context keeps every key list it knows,
and a block keeps those of the blocks inside it. -/
namespace CMakeManual.Manual
open Text Script Vocabulary

/-- No command with a role counts as a validation, in whatever letter case it is written. -/
theorem isValidation_of_role {name : String} {role : Role} (h : Role.ofName? name = some role) :
    isValidation name = false := by
  unfold Role.ofName? at h
  have hsame := List.find?_some h
  rw [isValidation, ← sameIgnoringCase_iff.mp hsame]
  rcases role with (_ | _) | (_ | _) | _ | _ <;> decide

theorem role_of_isValidation {name : String} (h : isValidation name = true) :
    Role.ofName? name = none := by
  cases hr : Role.ofName? name with
  | none => rfl
  | some role => simp [isValidation_of_role hr] at h

/-- The context behind the validation of a variable, for a policy that looks at validations. -/
def Context.validate (context : Context) (policy : Requiredness) (validated : String) : Context :=
  match policy with
  | .byValidationCall =>
      { context with evidence := ⟨validated :: context.evidence.validated⟩ }
  | .never => context

/-- A validation that names what it validates. -/
def IsEvidence (command : Invocation) : Prop :=
  isValidation command.name = true ∧ command.arguments ≠ []

theorem observe_eq_none {command : Invocation} (h : ¬ IsEvidence command)
    (policy : Requiredness) (evidence : Evidence) : policy.observe evidence command = none := by
  unfold Requiredness.observe
  split
  next first others _ ha =>
    have hname : isValidation command.name = false := by
      by_contra hv
      exact h ⟨by simpa using hv, by simp [ha]⟩
    simp [hname]
  next => rfl

/-- What one command can do: validate a variable, assign one, declare keyword arguments, or leave
everything as it is. -/
theorem command_cases (command : Invocation) :
    (∃ validated, ∀ policy context, Context.resolve context policy command = .empty ∧
      context.next policy command = context.validate policy validated) ∨
    (∀ policy context, Context.resolve context policy command = .empty ∧
      context.next policy command = context.assign command) ∨
    (∀ policy context,
      Context.resolve context policy command = context.resolveCall policy command ∧
      context.next policy command = context) ∨
    (∀ policy context, Context.resolve context policy command = .empty ∧
      context.next policy command = context) := by
  by_cases hv : IsEvidence command
  · obtain ⟨hname, harguments⟩ := hv
    obtain ⟨first, others, ha⟩ := List.exists_cons_of_ne_nil harguments
    have hrole := role_of_isValidation hname
    refine .inl ⟨unquote first.text, ?_⟩
    intro policy context
    cases policy with
    | byValidationCall =>
      simp [Context.resolve, Context.next, Requiredness.observe, ha, hname, Context.validate]
    | never =>
      simp [Context.resolve, Context.next, Requiredness.observe, hrole, Context.validate]
  · have hobserve := observe_eq_none hv
    right
    cases hr : Role.ofName? command.name with
    | none => exact .inr (.inr (by simp [Context.resolve, Context.next, hobserve, hr]))
    | some role =>
      cases role with
      | opens kind => exact .inr (.inr (by simp [Context.resolve, Context.next, hobserve, hr]))
      | closes kind => exact .inr (.inr (by simp [Context.resolve, Context.next, hobserve, hr]))
      | assigns => exact .inl (by simp [Context.resolve, Context.next, hobserve, hr])
      | parsesArguments =>
        exact .inr (.inl (by simp [Context.resolve, Context.next, hobserve, hr]))

/-- A command declares nothing, or it is resolved as a parsing call. -/
theorem resolve_cases (command : Invocation) :
    (∀ policy context, Context.resolve context policy command = .empty) ∨
    ∀ policy context,
      Context.resolve context policy command = context.resolveCall policy command := by
  rcases command_cases command with ⟨validated, h⟩ | h | h | h
  · exact .inl fun policy context => (h policy context).1
  · exact .inl fun policy context => (h policy context).1
  · exact .inr fun policy context => (h policy context).1
  · exact .inl fun policy context => (h policy context).1

/-- A parsing call is too short, or names its prefix and its three lists, whatever is known. -/
theorem spec?_cases (command : Invocation) :
    (∀ policy context, Context.spec? context policy command = none) ∨
    ∃ variablePrefix options single multi, ∀ policy context,
      Context.spec? context policy command =
        some ⟨variablePrefix, context.keyList policy variablePrefix options,
          context.keyList policy variablePrefix single,
          context.keyList policy variablePrefix multi⟩ := by
  unfold Context.spec?
  split
  next first options single multi _ _ =>
    exact .inr ⟨unquote first, options, single, multi, fun _ _ => rfl⟩
  next => exact .inl fun _ _ => rfl

/-- What is known here, and below it what was known before. -/
def Context.over (context base : Context) : Context :=
  { assigned := context.assigned ++ base.assigned
    evidence := ⟨context.evidence.validated ++ base.evidence.validated⟩ }

/-- One command adds the same to every context. -/
theorem next_over (policy : Requiredness) (context base : Context) (command : Invocation) :
    (context.over base).next policy command = (context.next policy command).over base := by
  rcases command_cases command with ⟨validated, h⟩ | h | h | h
  · rw [(h policy _).2, (h policy _).2]
    cases policy <;> rfl
  · rw [(h policy _).2, (h policy _).2]
    unfold Context.assign
    split <;> rfl
  · rw [(h policy _).2, (h policy _).2]
  · rw [(h policy _).2, (h policy _).2]

/-- A wider context answers as before, or answers for a variable that was unknown. -/
theorem keys_over (context base : Context) (argument : String) :
    (context.over base).keys argument = context.keys argument ∨
    ∃ name keys resolved, context.keys argument = ([], .reference name false) ∧
      (context.over base).keys argument = (keys, .reference name resolved) := by
  unfold Context.keys
  dsimp only
  split
  · exact .inl rfl
  · split
    next name _ =>
      have hlookup : (context.over base).assigned.lookup (String.ofList name) =
          (context.assigned.lookup (String.ofList name)).or
            (base.assigned.lookup (String.ofList name)) := List.lookup_append
      -- The nearer assignment wins, so only an unknown variable can get a value from below.
      rw [hlookup]
      cases context.assigned.lookup (String.ofList name) with
      | some keys => exact .inl rfl
      | none =>
        cases base.assigned.lookup (String.ofList name) with
        | some keys => exact .inr ⟨String.ofList name, keys, true, rfl, rfl⟩
        | none => exact .inl rfl
    next => exact .inl rfl

/-- What is demanded stays so. -/
theorem requires_over (policy : Requiredness) (context base : Context)
    (variablePrefix key : String)
    (h : policy.requires context.evidence variablePrefix key = true) :
    policy.requires (context.over base).evidence variablePrefix key = true := by
  cases policy with
  | byValidationCall =>
    simp only [Requiredness.requires, Context.over, List.contains_append, Bool.or_eq_true] at h ⊢
    exact .inl h
  | never => exact h

/-- `wide` is `narrow` read with more known: what was known is the same, an unknown variable has
kept its name, and everything demanded still is. -/
structure KeyList.Widens (narrow wide : KeyList) : Prop where
  known : (∀ name, narrow.source ≠ .reference name false) →
    wide.source = narrow.source ∧ wide.keys = narrow.keys
  unknown : ∀ name, narrow.source = .reference name false →
    ∃ resolved, wide.source = .reference name resolved
  required : narrow.required.Sublist wide.required

structure KeywordSpec.Widens (narrow wide : KeywordSpec) : Prop where
  variablePrefix : wide.variablePrefix = narrow.variablePrefix
  options : narrow.options.Widens wide.options
  singleValue : narrow.singleValue.Widens wide.singleValue
  multiValue : narrow.multiValue.Widens wide.multiValue

theorem keyList_over (policy : Requiredness) (context base : Context)
    (variablePrefix argument : String) :
    (context.keyList policy variablePrefix argument).Widens
      ((context.over base).keyList policy variablePrefix argument) := by
  unfold Context.keyList
  rcases keys_over context base argument with h | ⟨name, keys, resolved, hn, hw⟩
  · rw [h]
    have hmono := List.monotone_filter_right (context.keys argument).1
      (requires_over policy context base variablePrefix)
    exact ⟨fun _ => ⟨rfl, rfl⟩, fun name hs => ⟨false, hs⟩, hmono⟩
  · rw [hn, hw]
    refine ⟨fun hknown => absurd rfl (hknown name), ?_, List.nil_sublist _⟩
    intro other hs
    obtain rfl : name = other := by simpa using hs
    exact ⟨resolved, rfl⟩

theorem resolveCall_over (policy : Requiredness) (context base : Context) (command : Invocation) :
    List.Forall₂ KeywordSpec.Widens (context.resolveCall policy command).specs
      ((context.over base).resolveCall policy command).specs := by
  unfold Context.resolveCall
  rcases spec?_cases command with h | ⟨variablePrefix, options, single, multi, h⟩
  · rw [h, h]
    exact .nil
  · rw [h, h]
    have hlist := keyList_over policy context base variablePrefix
    exact .cons ⟨rfl, hlist options, hlist single, hlist multi⟩ .nil

theorem resolve_over (policy : Requiredness) (context base : Context) (command : Invocation) :
    List.Forall₂ KeywordSpec.Widens (context.resolve policy command).specs
      ((context.over base).resolve policy command).specs := by
  rcases resolve_cases command with h | h
  · rw [h, h]
    exact .nil
  · rw [h, h]
    exact resolveCall_over policy context base command

/-- The same commands declare the same keyword arguments in a wider context, each list widened. -/
theorem resolveFrom_over (policy : Requiredness) (context base : Context)
    (commands : List Invocation) :
    List.Forall₂ KeywordSpec.Widens (resolveFrom policy context commands).specs
      (resolveFrom policy (context.over base) commands).specs := by
  induction commands generalizing context with
  | nil => exact .nil
  | cons command rest ih =>
    rw [resolveFrom, resolveFrom, next_over]
    exact List.rel_append (resolve_over policy context base command)
      (ih (context.next policy command))

/-- The specs of the whole are those of the first nodes, then those of the middle ones widened by
what the first have assigned and validated, then those of the last. -/
theorem resolveBody_between (policy : Requiredness) (pre body post : List Node) :
    ∃ inside after,
      (resolveBody policy (pre ++ body ++ post)).specs =
        (resolveBody policy pre).specs ++ inside ++ after ∧
      List.Forall₂ KeywordSpec.Widens (resolveBody policy body).specs inside := by
  let before := contextAfter policy .empty (invocations pre)
  let behind := contextAfter policy .empty (invocations pre ++ invocations body)
  refine ⟨(resolveFrom policy before (invocations body)).specs,
    (resolveFrom policy behind (invocations post)).specs, ?_, ?_⟩
  · rw [resolveBody, invocations_append, invocations_append, resolveFrom_append,
      resolveFrom_append]
    rfl
  · exact resolveFrom_over policy .empty before (invocations body)

theorem start_lt_stop {nodes : List Node} {b : Block} (hb : b ∈ blocks nodes) :
    b.start < b.stop := by
  obtain ⟨n, hn, -, hstop⟩ := opener_of_mem_blocks hb
  rcases blockStop_cases nodes b.start with hc | ⟨hend, -⟩
  · rw [hstop]
    exact hc.isOpen.lt
  · rw [hstop, hend]
    exact (List.getElem?_eq_some_iff.mp hn).1

/-- The body of a block holds the bodies of the blocks inside it. -/
theorem body_of_inside {nodes : List Node} {b c : Block} (hc : c ∈ blocks nodes)
    (hstart : b.start < c.start) (hstop : c.stop ≤ b.stop) :
    ∃ before after, b.body nodes = before ++ c.body nodes ++ after := by
  have hlt := start_lt_stop hc
  have hle := stop_le_length hc
  have htake : nodes.take b.stop =
      nodes.take (c.start + 1) ++ (c.body nodes ++ (nodes.take b.stop).drop c.stop) := by
    have hopener : (nodes.take c.stop).take (c.start + 1) = nodes.take (c.start + 1) := by
      rw [List.take_take, Nat.min_eq_left hlt]
    have hcloser : (nodes.take b.stop).take c.stop = nodes.take c.stop := by
      rw [List.take_take, Nat.min_eq_left hstop]
    rw [Block.body, ← List.append_assoc, ← hopener, List.take_append_drop, ← hcloser,
      List.take_append_drop]
  have hlength : b.start + 1 ≤ (nodes.take (c.start + 1)).length := by
    rw [List.length_take]
    omega
  refine ⟨(nodes.take (c.start + 1)).drop (b.start + 1), (nodes.take b.stop).drop c.stop, ?_⟩
  rw [List.append_assoc, ← List.drop_append_of_le_length hlength, ← htake]
  rfl

/-- More context never takes anything away. Nodes in front come first with what they declare alone;
the nodes in the middle declare what they do alone, with every list they know unchanged, every
unknown variable under its name and every demanded key still demanded; and a block holds in this way
what each block declares whose range lies inside its own. -/
theorem specs_widen (policy : Requiredness) :
    (∀ pre body post, ∃ inside after,
      (resolveBody policy (pre ++ body ++ post)).specs =
        (resolveBody policy pre).specs ++ inside ++ after ∧
      List.Forall₂ KeywordSpec.Widens (resolveBody policy body).specs inside) ∧
    ∀ nodes, ∀ b ∈ blocks nodes, ∀ c ∈ blocks nodes, b.start < c.start → c.stop ≤ b.stop →
      ∃ before inside after,
        (b.callable policy nodes).specs = before ++ inside ++ after ∧
        List.Forall₂ KeywordSpec.Widens (c.callable policy nodes).specs inside := by
  constructor
  · exact resolveBody_between policy
  · intro nodes b hb c hc hstart hstop
    obtain ⟨before, after, hbody⟩ := body_of_inside hc hstart hstop
    obtain ⟨inside, behind, hspecs, hwidens⟩ :=
      resolveBody_between policy before (c.body nodes) after
    refine ⟨(resolveBody policy before).specs, inside, behind, ?_, hwidens⟩
    rw [← hspecs, ← hbody]
    rfl

/-- A function assigns a list and validates a key; the macro inside refers to the list. -/
def widenedNodes : List Node :=
  [bareCall "function" ["f"], bareCall "set" ["opts", "A;B"], bareCall "check_var_defined" ["P_A"],
    bareCall "macro" ["m"],
    bareCall "cmake_parse_arguments" ["P", "$\x7bopts\x7d", "A;C", "$\x7bmore\x7d"],
    bareCall "endmacro" [], bareCall "endfunction" []]

/-- Read alone, the macro knows no option and demands nothing. -/
theorem specs_widen_macro :
    let f : Block := ⟨.functionBlock, "f", [], 1, 0, 6⟩
    let m : Block := ⟨.macroBlock, "m", [], 1, 3, 5⟩
    blocks widenedNodes = [f, m] ∧
    (m.callable .byValidationCall widenedNodes).specs =
      [⟨"P", ⟨[], [], .reference "opts" false⟩, ⟨["A", "C"], [], .literal⟩,
        ⟨[], [], .reference "more" false⟩⟩] ∧
    (f.callable .byValidationCall widenedNodes).specs =
      [⟨"P", ⟨["A", "B"], ["A"], .reference "opts" true⟩, ⟨["A", "C"], ["A"], .literal⟩,
        ⟨[], [], .reference "more" false⟩⟩] ∧
    ∃ before inside after,
      (f.callable .byValidationCall widenedNodes).specs = before ++ inside ++ after ∧
      List.Forall₂ KeywordSpec.Widens (m.callable .byValidationCall widenedNodes).specs inside := by
  intro f m
  have hblocks : blocks widenedNodes = [f, m] := by decide +kernel
  have hf : f ∈ blocks widenedNodes := by simp [hblocks]
  have hm : m ∈ blocks widenedNodes := by simp [hblocks]
  have hinside := (specs_widen .byValidationCall).2 widenedNodes f hf m hm (by decide) (by decide)
  exact ⟨hblocks, by decide +kernel, by decide +kernel, hinside⟩

end CMakeManual.Manual
