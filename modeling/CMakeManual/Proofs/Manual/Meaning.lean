import CMakeManual.Proofs.Manual.Concatenation
import CMakeManual.Proofs.Manual.ListValues
import CMakeManual.Proofs.Manual.Resolution
import Mathlib.Data.List.Sort

/-! What keyword arguments mean. A call is described by where it stands: its lists by the last
assignments at positions before it, and the keys it demands by the validations there. The one pass
over a body keeps a context that reflects the positions it has passed, so it gives for each call
what its position describes. -/
namespace CMakeManual.Manual
open Text Script Vocabulary

def CommandAt (body : List Node) (i : Nat) (command : Invocation) : Prop :=
  body[i]? = some (.invocation command)

/-- The command assigns these values to the variable that its first argument literally is. -/
def Assigns (command : Invocation) (name : String) (values : List Argument) : Prop :=
  lowerAscii command.name = "set".toList ∧
    ∃ target, command.arguments = target :: values ∧ target.text = name

/-- The command checks the variable that its first argument names. -/
def Validates (command : Invocation) (name : String) : Prop :=
  "check_var_defined".toList <:+ lowerAscii command.name ∧
    ∃ first others, command.arguments = first :: others ∧ IsUnquoted first.text.toList name.toList

/-- The position `i` has a command that assigns these values. -/
def AssignsAt (body : List Node) (i : Nat) (name : String) (values : List Argument) : Prop :=
  ∃ command, CommandAt body i command ∧ Assigns command name values

/-- The last assignment to the variable at a position before `i` gives it these values. -/
def LastAssigned (body : List Node) (i : Nat) (name : String) (values : List Argument) : Prop :=
  ∃ j < i, AssignsAt body j name values ∧
    ∀ k, j < k → k < i → ∀ others, ¬ AssignsAt body k name others

/-- No position before `i` assigns the variable. -/
def NeverAssigned (body : List Node) (i : Nat) (name : String) : Prop :=
  ∀ j < i, ∀ values, ¬ AssignsAt body j name values

/-- Some position before `i` validates the variable. -/
def ValidatedBefore (body : List Node) (i : Nat) (name : String) : Prop :=
  ∃ j < i, ∃ command, CommandAt body j command ∧ Validates command name

section Positions
variable {body : List Node} {i : Nat} {name : String}

/-- The step: one position more is the last to assign, or leaves the last as it was. -/
theorem lastAssigned_succ {values : List Argument} :
    LastAssigned body (i + 1) name values ↔
      AssignsAt body i name values ∨
        (∀ others, ¬ AssignsAt body i name others) ∧ LastAssigned body i name values := by
  constructor
  · rintro ⟨j, hj, hassigns, hlast⟩
    rcases Nat.lt_succ_iff_lt_or_eq.mp hj with hlt | rfl
    · refine .inr ⟨hlast i hlt (Nat.lt_succ_self i), j, hlt, hassigns, ?_⟩
      intro k hjk hki
      exact hlast k hjk (Nat.lt_succ_of_lt hki)
    · exact .inl hassigns
  · rintro (hassigns | ⟨hnone, j, hj, hassigns, hlast⟩)
    · refine ⟨i, Nat.lt_succ_self i, hassigns, ?_⟩
      intro k hik hki
      omega
    · refine ⟨j, Nat.lt_succ_of_lt hj, hassigns, ?_⟩
      intro k hjk hki
      rcases Nat.lt_succ_iff_lt_or_eq.mp hki with hlt | rfl
      · exact hlast k hjk hlt
      · exact hnone

theorem validatedBefore_succ :
    ValidatedBefore body (i + 1) name ↔
      (∃ command, CommandAt body i command ∧ Validates command name) ∨
        ValidatedBefore body i name := by
  constructor
  · rintro ⟨j, hj, hvalidates⟩
    rcases Nat.lt_succ_iff_lt_or_eq.mp hj with hlt | rfl
    · exact .inr ⟨j, hlt, hvalidates⟩
    · exact .inl hvalidates
  · rintro (hvalidates | ⟨j, hj, hvalidates⟩)
    · exact ⟨i, Nat.lt_succ_self i, hvalidates⟩
    · exact ⟨j, Nat.lt_succ_of_lt hj, hvalidates⟩

/-- A variable that is assigned at all has a last assignment. -/
theorem neverAssigned_iff :
    NeverAssigned body i name ↔ ∀ values, ¬ LastAssigned body i name values := by
  constructor
  · rintro hnever values ⟨j, hj, hassigns, -⟩
    exact hnever j hj values hassigns
  · intro hnone
    induction i with
    | zero =>
      intro j hj
      omega
    | succ i ih =>
      have hhere : ∀ others, ¬ AssignsAt body i name others := by
        intro others hassigns
        exact hnone others (lastAssigned_succ.mpr (.inl hassigns))
      have hbefore : NeverAssigned body i name := by
        apply ih
        intro values hlast
        exact hnone values (lastAssigned_succ.mpr (.inr ⟨hhere, hlast⟩))
      intro j hj
      rcases Nat.lt_succ_iff_lt_or_eq.mp hj with hlt | rfl
      · exact hbefore j hlt
      · exact hhere

end Positions

section Step
variable {command : Invocation} {name : String}

theorem isValidation_iff :
    isValidation command.name = true ↔ "check_var_defined".toList <:+ lowerAscii command.name :=
  List.isSuffixOf_iff_suffix

theorem not_isEvidence_of_role {role : Role} (h : Role.ofName? command.name = some role) :
    ¬ IsEvidence command := by
  rintro ⟨hvalidation, -⟩
  simp [isValidation_of_role h] at hvalidation

theorem assigned_next_of_assigns {values : List Argument} (h : Assigns command name values)
    (context : Context) :
    (context.next .byValidationCall command).assigned =
      (name, values.flatMap fun v => listElements v.text) :: context.assigned := by
  obtain ⟨hname, target, harguments, rfl⟩ := h
  have hrole : Role.ofName? command.name = some .assigns := (Role.ofName?_eq_some_iff _ _).mpr hname
  simp [Context.next, observe_eq_none (not_isEvidence_of_role hrole), hrole, Context.assign,
    harguments]

theorem lookup_next_of_not_assigns (h : ∀ values, ¬ Assigns command name values)
    (context : Context) :
    (context.next .byValidationCall command).assigned.lookup name =
      context.assigned.lookup name := by
  unfold Context.next
  split
  next => rfl
  next =>
    split
    next hrole =>
      unfold Context.assign
      split
      next => rfl
      next target values harguments =>
        have hname := (Role.ofName?_eq_some_iff _ _).mp hrole
        have hne : name ≠ target.text := by
          rintro rfl
          exact h values ⟨hname, target, harguments, rfl⟩
        rw [List.lookup_cons, beq_false_of_ne hne]
    next => rfl

theorem mem_validated_next (context : Context) :
    name ∈ (context.next .byValidationCall command).evidence.validated ↔
      Validates command name ∨ name ∈ context.evidence.validated := by
  by_cases hevidence : IsEvidence command
  · obtain ⟨hvalidation, hne⟩ := hevidence
    obtain ⟨first, others, harguments⟩ := List.exists_cons_of_ne_nil hne
    have hvalidates : Validates command name ↔ unquote first.text = name := by
      rw [Validates, and_iff_right (isValidation_iff.mp hvalidation), unquote_eq_iff]
      simp [harguments]
    rw [hvalidates]
    simp [Context.next, Requiredness.observe, harguments, hvalidation, eq_comm]
  · have hno : ¬ Validates command name := by
      rintro ⟨hname, first, others, harguments, -⟩
      exact hevidence ⟨isValidation_iff.mpr hname, by simp [harguments]⟩
    simp only [Context.next, observe_eq_none hevidence, hno, false_or]
    split
    next =>
      unfold Context.assign
      split <;> rfl
    next => rfl

end Step

/-- The context knows what the positions before `i` have assigned and validated. -/
structure Context.Reflects (context : Context) (body : List Node) (i : Nat) : Prop where
  assigned : ∀ name elements, context.assigned.lookup name = some elements ↔
    ∃ values, LastAssigned body i name values ∧ IsValue values elements
  validated : ∀ name, name ∈ context.evidence.validated ↔ ValidatedBefore body i name

theorem reflects_empty (body : List Node) : Context.empty.Reflects body 0 := by
  constructor
  · intro name elements
    simp [Context.empty, LastAssigned]
  · intro name
    simp [Context.empty, Evidence.empty, ValidatedBefore]

/-- The step at a command. -/
theorem Context.Reflects.command {context : Context} {body : List Node} {i : Nat}
    (h : context.Reflects body i) {command : Invocation} (hat : CommandAt body i command) :
    (context.next .byValidationCall command).Reflects body (i + 1) := by
  have honly {other : Invocation} : CommandAt body i other ↔ other = command := by
    rw [CommandAt, hat, Option.some.injEq, Node.invocation.injEq, eq_comm]
  have hassigns {name : String} {values : List Argument} :
      AssignsAt body i name values ↔ Assigns command name values := by
    simp [AssignsAt, honly]
  constructor
  · intro name elements
    -- The command is the last to assign the variable, or the last before it still is.
    by_cases hany : ∃ values, Assigns command name values
    · obtain ⟨values, hvalues⟩ := hany
      rw [assigned_next_of_assigns hvalues, List.lookup_cons_self, Option.some.injEq,
        ← isValue_iff]
      constructor
      · intro hvalue
        exact ⟨values, lastAssigned_succ.mpr (.inl (hassigns.mpr hvalues)), hvalue⟩
      · rintro ⟨others, hlast, hvalue⟩
        rcases lastAssigned_succ.mp hlast with hhere | ⟨hnone, -⟩
        · obtain ⟨-, target, harguments, -⟩ := hvalues
          obtain ⟨-, again, hagain, -⟩ := hassigns.mp hhere
          obtain rfl : values = others := by
            rw [harguments] at hagain
            exact (List.cons.inj hagain).2
          exact hvalue
        · exact absurd (hassigns.mpr hvalues) (hnone values)
    · have hnone : ∀ values, ¬ Assigns command name values := not_exists.mp hany
      rw [lookup_next_of_not_assigns hnone, h.assigned]
      simp [lastAssigned_succ, hassigns, hnone]
  · intro name
    rw [mem_validated_next, h.validated, validatedBefore_succ]
    simp [honly]

/-- The step at a node that is no command. -/
theorem Context.Reflects.other {context : Context} {body : List Node} {i : Nat}
    (h : context.Reflects body i) (hnone : ∀ command, ¬ CommandAt body i command) :
    context.Reflects body (i + 1) := by
  constructor
  · intro name elements
    simp [h.assigned, lastAssigned_succ, AssignsAt, hnone]
  · intro name
    simp [h.validated, validatedBefore_succ, hnone]

/-- The run: behind the first nodes of a body, the context reflects them. -/
theorem reflects_contextAfter (body : List Node) {i : Nat} (hi : i ≤ body.length) :
    (contextAfter .byValidationCall .empty (invocations (body.take i))).Reflects body i := by
  induction i with
  | zero => exact reflects_empty body
  | succ i ih =>
    have hbefore := ih (Nat.le_of_succ_le hi)
    have hnode : body[i]? = some body[i] := List.getElem?_eq_getElem hi
    rw [List.take_succ_eq_append_getElem hi, invocations_append, contextAfter, List.foldl_append]
    cases hn : body[i] with
    | invocation command => exact hbefore.command (hnode.trans (congrArg some hn))
    | comment text => exact hbefore.other (by simp [CommandAt, hnode, hn])
    | blankLine line => exact hbefore.other (by simp [CommandAt, hnode, hn])

/-- What a list text in the call at `i` means: its keys, and how it was written. -/
inductive ListText (body : List Node) (i : Nat) (cs : List Char) :
    List String → ListSource → Prop
  | emptyLiteral (hempty : IsEmptyLiteral cs) : ListText body i cs [] .emptyLiteral
  | known {name : String} {values : List Argument} {keys : List String}
      (hreference : IsReference cs name) (hlast : LastAssigned body i name values)
      (hkeys : IsValue values keys) : ListText body i cs keys (.reference name true)
  | unknown {name : String} (hreference : IsReference cs name)
      (hnever : NeverAssigned body i name) : ListText body i cs [] (.reference name false)
  | literal {keys : List String} (hempty : ¬ IsEmptyLiteral cs)
      (hreference : ∀ name, ¬ IsReference cs name) (hkeys : IsElements cs keys) :
      ListText body i cs keys .literal

open scoped Classical in
/-- What a list argument of the call at `i` means under a prefix: the keys of its text, trimmed and
without quotes, and those among them that stand behind the prefix in a validated variable. -/
structure ListArgument (body : List Node) (i : Nat) (variablePrefix argument : String)
    (list : KeyList) : Prop where
  text : ∃ trimmed cs, IsTrimmed argument.toList trimmed ∧ IsUnquoted trimmed cs ∧
    ListText body i cs list.keys list.source
  required : list.required =
    list.keys.filter fun key => ValidatedBefore body i (variablePrefix ++ "_" ++ key)

/-- The command is a parsing call with these arguments, in one of its two forms. -/
def ParsesArguments (command : Invocation) (first options single multi : String) : Prop :=
  lowerAscii command.name = "cmake_parse_arguments".toList ∧ ∃ others,
    command.arguments.map Argument.text = first :: options :: single :: multi :: others ∧
        first ≠ "PARSE_ARGV" ∨
      ∃ index, command.arguments.map Argument.text =
        "PARSE_ARGV" :: index :: first :: options :: single :: multi :: others

/-- What the call at `i` declares. -/
def DeclaredAt (body : List Node) (i : Nat) (spec : KeywordSpec) : Prop :=
  ∃ command first options single multi, CommandAt body i command ∧
    ParsesArguments command first options single multi ∧
    IsUnquoted first.toList spec.variablePrefix.toList ∧
    ListArgument body i spec.variablePrefix options spec.options ∧
    ListArgument body i spec.variablePrefix single spec.singleValue ∧
    ListArgument body i spec.variablePrefix multi spec.multiValue

/-- A parsing call with enough arguments for its form stands at `i`. -/
def CallAt (body : List Node) (i : Nat) : Prop :=
  ∃ command, CommandAt body i command ∧
    lowerAscii command.name = "cmake_parse_arguments".toList ∧
    if command.arguments.head?.map Argument.text = some "PARSE_ARGV"
      then 6 ≤ command.arguments.length else 4 ≤ command.arguments.length

/-- The keyword arguments of a body: in order, one for each position with a call, and what is
declared there. -/
def Declared (body : List Node) (specs : List KeywordSpec) : Prop :=
  ∃ places : List Nat, places.Pairwise (· < ·) ∧ (∀ i, i ∈ places ↔ CallAt body i) ∧
    List.Forall₂ (DeclaredAt body) places specs

section Call
variable {context : Context} {body : List Node} {i : Nat} (h : context.Reflects body i)
include h

theorem Context.Reflects.lookup_eq_none_iff {name : String} :
    context.assigned.lookup name = none ↔ NeverAssigned body i name := by
  rw [Option.eq_none_iff_forall_ne_some, neverAssigned_iff]
  constructor
  · intro hnone values hlast
    exact hnone _ ((h.assigned _ _).mpr ⟨values, hlast, isValue_iff.mpr rfl⟩)
  · intro hnever elements hsome
    obtain ⟨values, hlast, -⟩ := (h.assigned _ _).mp hsome
    exact hnever values hlast

theorem Context.Reflects.listText (argument : String) :
    ListText body i (unquoteOnce (trim argument.toList)) (context.keys argument).1
      (context.keys argument).2 := by
  unfold Context.keys
  dsimp only
  split
  next hempty => exact .emptyLiteral hempty
  next hempty =>
    split
    next name hname =>
      rw [← String.toList_ofList (l := name)] at hname
      have hreference := referenceName?_eq_some_iff.mp hname
      split
      next elements hlookup =>
        obtain ⟨values, hlast, hvalue⟩ := (h.assigned _ _).mp hlookup
        exact .known hreference hlast hvalue
      next hlookup => exact .unknown hreference (h.lookup_eq_none_iff.mp hlookup)
    next hname =>
      exact .literal hempty (referenceName?_eq_none_iff.mp hname) (isElements_iff.mpr rfl)

theorem Context.Reflects.keys_of_listText {argument : String} {keys : List String}
    {source : ListSource}
    (htext : ListText body i (unquoteOnce (trim argument.toList)) keys source) :
    context.keys argument = (keys, source) := by
  unfold Context.keys
  dsimp only
  cases htext with
  | emptyLiteral hempty => exact if_pos hempty
  | known hreference hlast hkeys =>
    have hlookup := (h.assigned _ _).mpr ⟨_, hlast, hkeys⟩
    refine (if_neg hreference.not_isEmptyLiteral).trans ?_
    rw [referenceName?_eq_some_iff.mpr hreference]
    simp only [String.ofList_toList, hlookup]
  | unknown hreference hnever =>
    have hlookup := h.lookup_eq_none_iff.mpr hnever
    refine (if_neg hreference.not_isEmptyLiteral).trans ?_
    rw [referenceName?_eq_some_iff.mpr hreference]
    simp only [String.ofList_toList, hlookup]
  | literal hempty hreference hkeys =>
    refine (if_neg hempty).trans ?_
    rw [referenceName?_eq_none_iff.mpr hreference, isElements_iff.mp hkeys]

theorem Context.Reflects.requires_iff {variablePrefix key : String} :
    Requiredness.requires .byValidationCall context.evidence variablePrefix key = true ↔
      ValidatedBefore body i (variablePrefix ++ "_" ++ key) := by
  rw [Requiredness.requires, List.contains_iff_mem, h.validated, keyVariable]

open scoped Classical in
theorem Context.Reflects.required_eq (variablePrefix : String) (keys : List String) :
    keys.filter (Requiredness.requires .byValidationCall context.evidence variablePrefix) =
      keys.filter fun key => ValidatedBefore body i (variablePrefix ++ "_" ++ key) := by
  apply List.filter_congr
  intro key _
  rw [Bool.eq_iff_iff, h.requires_iff, decide_eq_true_eq]

theorem Context.Reflects.keyList_eq_iff {variablePrefix argument : String} {list : KeyList} :
    context.keyList .byValidationCall variablePrefix argument = list ↔
      ListArgument body i variablePrefix argument list := by
  constructor
  · rintro rfl
    exact ⟨⟨_, _, isTrimmed_trim _, isUnquoted_unquoteOnce _, h.listText argument⟩,
      h.required_eq variablePrefix _⟩
  · rintro ⟨⟨trimmed, cs, htrimmed, hunquoted, htext⟩, hrequired⟩
    obtain rfl := trim_eq_iff.mpr htrimmed
    obtain rfl := unquoteOnce_eq_iff.mpr hunquoted
    rw [Context.keyList, h.keys_of_listText htext]
    simp only [h.required_eq, ← hrequired]

end Call

section Arguments
variable {command : Invocation}

theorem callArguments_eq_iff {first options single multi : String} {others : List String} :
    callArguments command = first :: options :: single :: multi :: others ↔
      command.arguments.map Argument.text = first :: options :: single :: multi :: others ∧
          first ≠ "PARSE_ARGV" ∨
        ∃ index, command.arguments.map Argument.text =
          "PARSE_ARGV" :: index :: first :: options :: single :: multi :: others := by
  unfold callArguments
  generalize command.arguments.map Argument.text = texts
  cases texts with
  | nil => simp
  | cons t ts =>
    by_cases ht : t = parseArgvWord
    · subst ht
      cases ts with
      | nil => simp
      | cons index ts =>
        simp only [if_true, List.drop_succ_cons, List.drop_zero]
        constructor
        · rintro rfl
          exact .inr ⟨index, rfl⟩
        · rintro (⟨htexts, hplain⟩ | ⟨other, htexts⟩)
          · exact absurd (List.cons.inj htexts).1.symm hplain
          · exact (List.cons.inj (List.cons.inj htexts).2).2
    · have hplain : t ≠ "PARSE_ARGV" := ht
      simp only [ht, if_false]
      constructor
      · intro htexts
        obtain ⟨rfl, rfl⟩ := List.cons.inj htexts
        exact .inl ⟨rfl, hplain⟩
      · rintro (⟨htexts, -⟩ | ⟨index, htexts⟩)
        · exact htexts
        · exact absurd (List.cons.inj htexts).1 hplain

/-- There are enough arguments exactly if four are left from the prefix on. -/
theorem four_le_callArguments :
    4 ≤ (callArguments command).length ↔
      if command.arguments.head?.map Argument.text = some "PARSE_ARGV"
        then 6 ≤ command.arguments.length else 4 ≤ command.arguments.length := by
  unfold callArguments
  cases command.arguments with
  | nil => simp
  | cons first others =>
    by_cases hfirst : first.text = parseArgvWord
    · have hword : first.text = "PARSE_ARGV" := hfirst
      simp [hfirst, parseArgvWord]
      omega
    · have hword : first.text ≠ "PARSE_ARGV" := hfirst
      simp [hfirst, hword]

theorem spec?_isSome {context : Context} {policy : Requiredness} :
    (context.spec? policy command).isSome = true ↔ 4 ≤ (callArguments command).length := by
  unfold Context.spec?
  split
  next h => simp [h]
  next h =>
    rcases hc : callArguments command with _ | ⟨a, _ | ⟨b, _ | ⟨c, _ | ⟨d, r⟩⟩⟩⟩
    · simp
    · simp
    · simp
    · simp
    · exact absurd hc (h a b c d r)

theorem spec?_eq_some_iff {context : Context} {policy : Requiredness} {spec : KeywordSpec} :
    context.spec? policy command = some spec ↔
      ∃ first options single multi others,
        callArguments command = first :: options :: single :: multi :: others ∧
        unquote first = spec.variablePrefix ∧
        context.keyList policy spec.variablePrefix options = spec.options ∧
        context.keyList policy spec.variablePrefix single = spec.singleValue ∧
        context.keyList policy spec.variablePrefix multi = spec.multiValue := by
  unfold Context.spec?
  constructor
  · intro h
    split at h
    next first options single multi others hc =>
      obtain rfl := Option.some.inj h
      exact ⟨first, options, single, multi, others, hc, rfl, rfl, rfl, rfl⟩
    next => simp at h
  · rintro ⟨first, options, single, multi, others, hc, hvariable, hoptions, hsingle, hmulti⟩
    rw [hc]
    simp only [hvariable, hoptions, hsingle, hmulti]

end Arguments

/-- What the pass over a body resolves at a position. -/
def specAt (context : Context) (body : List Node) (i : Nat) : Option KeywordSpec :=
  (body[i]?.bind Node.invocation?).bind fun command =>
    if Role.ofName? command.name = some .parsesArguments then
      (contextAfter .byValidationCall context (invocations (body.take i))).spec?
        .byValidationCall command
    else none

theorem specAt_zero (context : Context) (command : Invocation) (rest : List Node) :
    (context.resolve .byValidationCall command).specs =
      (specAt context (.invocation command :: rest) 0).toList := by
  have hat : specAt context (.invocation command :: rest) 0 =
      if Role.ofName? command.name = some .parsesArguments then
        context.spec? .byValidationCall command else none := rfl
  rw [hat, Context.resolve]
  by_cases hrole : Role.ofName? command.name = some .parsesArguments
  · rw [observe_eq_none (not_isEvidence_of_role hrole), if_neg (by simp), if_pos hrole,
      if_pos hrole, Context.resolveCall]
    cases context.spec? .byValidationCall command <;> rfl
  · rw [if_neg hrole, if_neg hrole, ite_self]
    rfl

/-- The pass gives, in order, what it resolves at each position. -/
theorem resolveFrom_specs (context : Context) (body : List Node) :
    (resolveFrom .byValidationCall context (invocations body)).specs =
      (List.range body.length).filterMap (specAt context body) := by
  induction body generalizing context with
  | nil => rfl
  | cons n rest ih =>
    rw [List.length_cons, List.range_succ_eq_map, List.filterMap_cons, List.filterMap_map]
    cases n with
    | invocation command =>
      have hlater := ih (context.next .byValidationCall command)
      have hhere := specAt_zero context command rest
      rw [show invocations (.invocation command :: rest) = command :: invocations rest from rfl,
        resolveFrom, Resolution.append, hhere, hlater]
      cases specAt context (.invocation command :: rest) 0 <;> rfl
    | comment text => exact ih context
    | blankLine line => exact ih context

theorem commandAt_iff {body : List Node} {i : Nat} {command : Invocation} :
    body[i]?.bind Node.invocation? = some command ↔ CommandAt body i command := by
  unfold CommandAt
  rcases body[i]? with _ | (_ | _ | _) <;> simp [Node.invocation?]

theorem specAt_eq_some {context : Context} {body : List Node} {i : Nat} {spec : KeywordSpec} :
    specAt context body i = some spec ↔
      ∃ command, CommandAt body i command ∧
        lowerAscii command.name = "cmake_parse_arguments".toList ∧
        (contextAfter .byValidationCall context (invocations (body.take i))).spec?
          .byValidationCall command = some spec := by
  have hrole (command : Invocation) : Role.ofName? command.name = some .parsesArguments ↔
      lowerAscii command.name = "cmake_parse_arguments".toList := Role.ofName?_eq_some_iff _ _
  rw [specAt, Option.bind_eq_some_iff]
  simp only [commandAt_iff, hrole, Option.ite_none_right_eq_some]

/-- What is resolved at a position is what is declared there. -/
theorem specAt_eq_some_iff {body : List Node} {i : Nat} {spec : KeywordSpec} :
    specAt .empty body i = some spec ↔ DeclaredAt body i spec := by
  have hreflects {command : Invocation} (hat : CommandAt body i command) :=
    reflects_contextAfter body (Nat.le_of_lt (List.getElem?_eq_some_iff.mp hat).1)
  rw [specAt_eq_some]
  constructor
  · rintro ⟨command, hat, hname, hspec⟩
    have hknown := hreflects hat
    obtain ⟨first, options, single, multi, others, hc, hvariable, hoptions, hsingle, hmulti⟩ :=
      spec?_eq_some_iff.mp hspec
    exact ⟨command, first, options, single, multi, hat,
      ⟨hname, others, callArguments_eq_iff.mp hc⟩, unquote_eq_iff.mp hvariable,
      hknown.keyList_eq_iff.mp hoptions, hknown.keyList_eq_iff.mp hsingle,
      hknown.keyList_eq_iff.mp hmulti⟩
  · rintro ⟨command, first, options, single, multi, hat, ⟨hname, others, hc⟩, hvariable, hoptions,
      hsingle, hmulti⟩
    have hknown := hreflects hat
    refine ⟨command, hat, hname, spec?_eq_some_iff.mpr ?_⟩
    exact ⟨first, options, single, multi, others, callArguments_eq_iff.mpr hc,
      unquote_eq_iff.mpr hvariable, hknown.keyList_eq_iff.mpr hoptions,
      hknown.keyList_eq_iff.mpr hsingle, hknown.keyList_eq_iff.mpr hmulti⟩

theorem specAt_isSome_iff {body : List Node} {i : Nat} :
    (specAt .empty body i).isSome = true ↔ CallAt body i := by
  rw [Option.isSome_iff_exists]
  unfold CallAt
  simp only [specAt_eq_some, ← four_le_callArguments]
  constructor
  · rintro ⟨spec, command, hat, hname, hspec⟩
    exact ⟨command, hat, hname, spec?_isSome.mp (Option.isSome_of_eq_some hspec)⟩
  · rintro ⟨command, hat, hname, hlength⟩
    obtain ⟨spec, hspec⟩ := Option.isSome_iff_exists.mp (spec?_isSome.mpr hlength)
    exact ⟨spec, command, hat, hname, hspec⟩

theorem forall₂_some_iff {α β : Type} {f : α → Option β} {xs : List α} {ys : List β}
    (h : ∀ x ∈ xs, (f x).isSome = true) :
    List.Forall₂ (fun x y => f x = some y) xs ys ↔ xs.filterMap f = ys := by
  induction xs generalizing ys with
  | nil => simp [eq_comm]
  | cons x xs ih =>
    obtain ⟨y, hy⟩ := Option.isSome_iff_exists.mp (h x List.mem_cons_self)
    have hrest : ∀ z ∈ xs, (f z).isSome = true := fun z hz => h z (List.mem_cons_of_mem x hz)
    rw [List.filterMap_cons_some hy]
    constructor
    · rintro (_ | ⟨hz, hzs⟩)
      obtain rfl := Option.some.inj (hy.symm.trans hz)
      rw [(ih hrest).mp hzs]
    · rintro rfl
      exact .cons hy ((ih hrest).mpr rfl)

/-- The positions at which the pass over a body resolves a call. -/
def callPlaces (body : List Node) : List Nat :=
  (List.range body.length).filter fun i => (specAt .empty body i).isSome

theorem mem_callPlaces {body : List Node} {i : Nat} : i ∈ callPlaces body ↔ CallAt body i := by
  rw [callPlaces, List.mem_filter, List.mem_range, specAt_isSome_iff]
  constructor
  · exact And.right
  · intro hcall
    have ⟨command, hat, _⟩ := hcall
    exact ⟨(List.getElem?_eq_some_iff.mp hat).1, hcall⟩

theorem callPlaces_ordered (body : List Node) : (callPlaces body).Pairwise (· < ·) :=
  List.pairwise_lt_range.filter _

theorem resolveBody_specs (body : List Node) :
    (resolveBody .byValidationCall body).specs =
      (callPlaces body).filterMap (specAt .empty body) := by
  rw [resolveBody, resolveFrom_specs, callPlaces, List.filterMap_filter]
  congr 1
  funext i
  cases specAt .empty body i <;> rfl

/-- Keyword resolution is what it is described to be: the specs of a body are, in order, one for
each position with a parsing call that is long enough, and each is what its position declares. -/
theorem resolveBody_specs_iff (body : List Node) (specs : List KeywordSpec) :
    (resolveBody .byValidationCall body).specs = specs ↔ Declared body specs := by
  have hsome : ∀ i ∈ callPlaces body, (specAt .empty body i).isSome = true := by
    intro i hi
    exact specAt_isSome_iff.mpr (mem_callPlaces.mp hi)
  have hdeclared : (resolveBody .byValidationCall body).specs = specs ↔
      List.Forall₂ (DeclaredAt body) (callPlaces body) specs := by
    simp only [resolveBody_specs, ← forall₂_some_iff hsome, specAt_eq_some_iff]
  rw [hdeclared]
  constructor
  · intro hall
    exact ⟨callPlaces body, callPlaces_ordered body, fun _ => mem_callPlaces, hall⟩
  · rintro ⟨places, hordered, hcalls, hall⟩
    -- Positions in order are determined by which they are.
    obtain rfl : callPlaces body = places :=
      (callPlaces_ordered body).eq_of_mem_iff hordered fun i => mem_callPlaces.trans (hcalls i).symm
    exact hall

end CMakeManual.Manual
