import CMakeManual.Proofs.Manual.Congruence
import CMakeManual.Proofs.Manual.Meaning
import CMakeManual.Proofs.Manual.Requiredness

/-! The spelling of key lists. A list of keys can be assigned to a variable in groups of any size,
bare or in quotes, and be referred to, or it can be written into the parsing call. The call declares
the same keys each time, and only the source of the list shows how it was written. Nor do quotes
around a prefix or a validated variable show. -/
namespace CMakeManual.Manual
open Text Script Vocabulary

/-- `text` is `t` between two equal quotes. -/
def IsWrapped (t text : List Char) : Prop := ∃ q, IsQuote q ∧ text = q :: t ++ [q]

theorem IsWrapped.unquoteOnce {t text : List Char} (h : IsWrapped t text) :
    unquoteOnce text = t := by
  obtain ⟨q, hq, rfl⟩ := h
  exact unquoteOnce_quoted hq t

theorem unquoteOnce_bare {text : List Char} (h : ∀ t, ¬ IsWrapped t text) :
    unquoteOnce text = text :=
  unquoteOnce_eq_iff.mpr (.inr ⟨rfl, fun q t hq htext => h t ⟨q, hq, htext⟩⟩)

/-- A text without quotes is not in quotes. -/
theorem not_isWrapped {text : List Char} (h : ∀ c ∈ text, ¬ IsQuote c) (t : List Char) :
    ¬ IsWrapped t text := by
  rintro ⟨q, hq, rfl⟩
  exact h q (by simp) hq

/-- Quotes around a text that has none are taken off again. -/
theorem unquote_wrapped {s t : String} (h : ∀ u, ¬ IsWrapped u s.toList)
    (hwrapped : IsWrapped s.toList t.toList) : unquote t = unquote s := by
  rw [unquote, unquote, hwrapped.unquoteOnce, unquoteOnce_bare h]

theorem IsQuote.not_blank {q : Char} (h : IsQuote q) : isBlank q = false := by
  rcases h with rfl | rfl <;> decide

/-- Nothing is trimmed from a text that neither starts nor ends with a blank. -/
theorem trim_between {first last : Char} (hfirst : isBlank first = false)
    (hlast : isBlank last = false) (t : List Char) :
    trim (first :: t ++ [last]) = first :: t ++ [last] := by
  have htrim : trim ([] ++ (first :: t ++ [last]) ++ []) = first :: t ++ [last] :=
    trim_append (by simp) (by simp) (by simpa using hfirst)
      (by simpa [List.getLast?_cons] using hlast)
  simpa using htrim

theorem IsWrapped.trim {t text : List Char} (h : IsWrapped t text) : trim text = text := by
  obtain ⟨q, hq, rfl⟩ := h
  exact trim_between hq.not_blank hq.not_blank t

/-- A key that no spelling takes apart. -/
structure IsPlainKey (key : String) : Prop where
  nonempty : key ≠ ""
  separator : ';' ∉ key.toList
  quotes : ∀ c ∈ key.toList, ¬ IsQuote c
  dollar : '$' ∉ key.toList

def joinedKeys (keys : List String) : List Char := [';'].intercalate (keys.map String.toList)

/-- The text is the keys, joined by semicolons, with empty elements put in anywhere. -/
def SpellsKeys (keys : List String) (t : List Char) : Prop :=
  ∃ ps : List (List Char), ps.filter (· ≠ []) = keys.map String.toList ∧ t = [';'].intercalate ps

/-- The values are consecutive groups of the keys, each bare or in quotes. -/
def WritesKeys (keys : List String) (values : List Argument) : Prop :=
  ∃ groups : List (List String), groups.flatten = keys ∧
    List.Forall₂ (fun group (v : Argument) => ∃ t, SpellsKeys group t ∧
      (v.text.toList = t ∨ IsWrapped t v.text.toList)) groups values

theorem mem_intercalate {separator c : Char} {ps : List (List Char)}
    (h : c ∈ [separator].intercalate ps) : c = separator ∨ ∃ p ∈ ps, c ∈ p := by
  induction ps with
  | nil => simp at h
  | cons p ps ih =>
    cases ps with
    | nil => exact .inr ⟨p, by simp, by simpa using h⟩
    | cons p' ps =>
      rw [List.intercalate_cons_cons, List.append_assoc, List.mem_append, List.mem_append] at h
      rcases h with h | h | h
      · exact .inr ⟨p, by simp, h⟩
      · exact .inl (List.mem_singleton.mp h)
      · rcases ih h with rfl | ⟨p'', hp'', hc⟩
        · exact .inl rfl
        · exact .inr ⟨p'', List.mem_cons_of_mem p hp'', hc⟩

theorem key_of_element {keys : List String} {ps : List (List Char)}
    (h : ps.filter (· ≠ []) = keys.map String.toList) {p : List Char} (hp : p ∈ ps) (hne : p ≠ []) :
    ∃ key ∈ keys, key.toList = p := by
  have hkept : p ∈ ps.filter (· ≠ []) := List.mem_filter.mpr ⟨hp, by simpa using hne⟩
  rw [h] at hkept
  exact List.mem_map.mp hkept

/-- Every character is a separator or stands in a key. -/
theorem SpellsKeys.mem {keys : List String} {t : List Char} (h : SpellsKeys keys t) {c : Char}
    (hc : c ∈ t) : c = ';' ∨ ∃ key ∈ keys, c ∈ key.toList := by
  obtain ⟨ps, hps, rfl⟩ := h
  rcases mem_intercalate hc with rfl | ⟨p, hp, hcp⟩
  · exact .inl rfl
  · obtain ⟨key, hkey, rfl⟩ := key_of_element hps hp (List.ne_nil_of_mem hcp)
    exact .inr ⟨key, hkey, hcp⟩

section Spelled
variable {keys : List String} (hkeys : ∀ key ∈ keys, IsPlainKey key)
include hkeys

/-- Joined keys spell them, without empty elements. -/
theorem spellsKeys_joinedKeys : SpellsKeys keys (joinedKeys keys) := by
  refine ⟨keys.map String.toList, List.filter_eq_self.mpr ?_, rfl⟩
  intro p hp
  obtain ⟨key, hkey, rfl⟩ := List.mem_map.mp hp
  simpa using (hkeys key hkey).nonempty

variable {t : List Char} (h : SpellsKeys keys t)
include h

theorem SpellsKeys.not_quote {c : Char} (hc : c ∈ t) : ¬ IsQuote c := by
  rcases h.mem hc with rfl | ⟨key, hkey, hmem⟩
  · simp [IsQuote]
  · exact (hkeys key hkey).quotes c hmem

theorem SpellsKeys.dollar_not_mem : '$' ∉ t := by
  intro hc
  rcases h.mem hc with hseparator | ⟨key, hkey, hmem⟩
  · exact absurd hseparator (by decide)
  · exact (hkeys key hkey).dollar hmem

/-- The elements of the text are the keys. -/
theorem SpellsKeys.isElements : IsElements t keys := by
  obtain ⟨ps, hps, rfl⟩ := h
  have hkept : keys = (ps.filter (· ≠ [])).map String.ofList := by
    rw [hps, List.map_map]
    simp [Function.comp_def]
  have hwhole : ∀ p ∈ ps, ';' ∉ p := by
    intro p hp hmem
    obtain ⟨key, hkey, rfl⟩ := key_of_element hps hp (List.ne_nil_of_mem hmem)
    exact (hkeys key hkey).separator hmem
  cases ps with
  | nil => exact ⟨[[]], by simp, by simp, rfl, hkept⟩
  | cons p ps => exact ⟨p :: ps, by simp, hwhole, rfl, hkept⟩

theorem SpellsKeys.listElements {text : String}
    (htext : text.toList = t ∨ IsWrapped t text.toList) : listElements text = keys := by
  have hunquoted : unquoteOnce text.toList = t := by
    rcases htext with htext | hwrapped
    · rw [htext]
      exact unquoteOnce_bare (not_isWrapped fun c hc => h.not_quote hkeys hc)
    · exact hwrapped.unquoteOnce
  rw [Manual.listElements, hunquoted]
  exact isElements_iff.mp (h.isElements hkeys)

end Spelled

/-- Values that write the keys stand for them. -/
theorem WritesKeys.elements {keys : List String} (hkeys : ∀ key ∈ keys, IsPlainKey key)
    {values : List Argument} (h : WritesKeys keys values) :
    (values.flatMap fun v => listElements v.text) = keys := by
  obtain ⟨groups, rfl, hgroups⟩ := h
  induction hgroups with
  | nil => rfl
  | @cons group v groups values hv _ ih =>
    obtain ⟨t, ht, htext⟩ := hv
    rw [List.flatten_cons] at hkeys ⊢
    have hfirst : listElements v.text = group :=
      ht.listElements (fun key hkey => hkeys key (List.mem_append_left _ hkey)) htext
    rw [List.flatMap_cons, hfirst, ih fun key hkey => hkeys key (List.mem_append_right _ hkey)]

def referenceText (name : String) : List Char := '$' :: '\x7b' :: name.toList ++ ['\x7d']

/-- How keys written into a call are recorded. -/
def literalSource (keys : List String) : ListSource := if keys = [] then .emptyLiteral else .literal

/-- The argument stands for the keys where the variable `name` holds them: it refers to the
variable, bare or in quotes, or it is the keys in quotes. -/
inductive SpellsList (name : String) (keys : List String) (argument : String) : ListSource → Prop
  | reference (h : argument.toList = referenceText name ∨
      IsWrapped (referenceText name) argument.toList) :
      SpellsList name keys argument (.reference name true)
  | literal (h : IsWrapped (joinedKeys keys) argument.toList) :
      SpellsList name keys argument (literalSource keys)

/-- A name that can be referred to. -/
def IsVariableName (name : String) : Prop := name ≠ "" ∧ '\x7d' ∉ name.toList

theorem SpellsKeys.not_isEmptyLiteral {keys : List String} (hkeys : ∀ key ∈ keys, IsPlainKey key)
    {t : List Char} (h : SpellsKeys keys t) (hne : keys ≠ []) : ¬ IsEmptyLiteral t := by
  rintro (rfl | rfl | rfl)
  · exact hne (isElements_iff.mp (h.isElements hkeys)).symm
  · exact h.not_quote hkeys List.mem_cons_self (.inl rfl)
  · exact h.not_quote hkeys List.mem_cons_self (.inr rfl)

theorem SpellsKeys.not_isReference {keys : List String} (hkeys : ∀ key ∈ keys, IsPlainKey key)
    {t : List Char} (h : SpellsKeys keys t) (name : String) : ¬ IsReference t name := by
  rintro ⟨rfl, -⟩
  exact h.dollar_not_mem hkeys List.mem_cons_self

/-- Keys in quotes are read in every context. -/
theorem keys_literal {keys : List String} (hkeys : ∀ key ∈ keys, IsPlainKey key)
    {argument : String} (h : IsWrapped (joinedKeys keys) argument.toList) (context : Context) :
    context.keys argument = (keys, literalSource keys) := by
  have hspells := spellsKeys_joinedKeys hkeys
  unfold Context.keys
  rw [h.trim, h.unquoteOnce]
  dsimp only
  by_cases hne : keys = []
  · subst hne
    rfl
  · have hempty := hspells.not_isEmptyLiteral hkeys hne
    have hreference := referenceName?_eq_none_iff.mpr (hspells.not_isReference hkeys)
    have helements := isElements_iff.mp (hspells.isElements hkeys)
    rw [literalSource, if_neg hne]
    refine (if_neg hempty).trans ?_
    rw [hreference, helements]

/-- A reference is read where the variable is known. -/
theorem keys_reference {name : String} (hname : IsVariableName name) {argument : String}
    (h : argument.toList = referenceText name ∨ IsWrapped (referenceText name) argument.toList)
    {context : Context} {keys : List String}
    (hknown : context.assigned.lookup name = some keys) :
    context.keys argument = (keys, .reference name true) := by
  have hreference : IsReference (referenceText name) name := ⟨rfl, hname⟩
  have hbare : ∀ t, ¬ IsWrapped t (referenceText name) := by
    rintro t ⟨q, hq, htext⟩
    obtain rfl : '$' = q := (List.cons.inj htext).1
    exact absurd hq (by simp [IsQuote])
  have htext : unquoteOnce (trim argument.toList) = referenceText name := by
    rcases h with h | h
    · rw [h, referenceText, trim_between (by decide) (by decide)]
      exact unquoteOnce_bare hbare
    · rw [h.trim, h.unquoteOnce]
  unfold Context.keys
  rw [htext]
  refine (if_neg hreference.not_isEmptyLiteral).trans ?_
  rw [referenceName?_eq_some_iff.mpr hreference]
  simp only [String.ofList_toList, hknown]

/-- Every spelling is read as the keys. -/
theorem SpellsList.keys {name : String} (hname : IsVariableName name) {keys : List String}
    (hkeys : ∀ key ∈ keys, IsPlainKey key) {argument : String} {source : ListSource}
    (h : SpellsList name keys argument source) {context : Context}
    (hknown : context.assigned.lookup name = some keys) :
    context.keys argument = (keys, source) := by
  cases h with
  | reference h => exact keys_reference hname h hknown
  | literal h => exact keys_literal hkeys h context

theorem invocations_around (command : Invocation) (front back : List Node) :
    invocations (front ++ .invocation command :: back) =
      invocations front ++ command :: invocations back :=
  invocations_append front (.invocation command :: back)

theorem contextAfter_append (policy : Requiredness) (context : Context) (cs ds : List Invocation) :
    contextAfter policy context (cs ++ ds) =
      contextAfter policy (contextAfter policy context cs) ds :=
  List.foldl_append

/-- An assignment that writes the keys leaves the variable with them. -/
theorem next_of_assigns {setter : Invocation} {name : String} {values : List Argument}
    (h : Assigns setter name values) {keys : List String}
    (hkeys : ∀ key ∈ keys, IsPlainKey key) (hwrites : WritesKeys keys values)
    (policy : Requiredness) (context : Context) :
    context.resolve policy setter = .empty ∧
      context.next policy setter =
        { context with assigned := (name, keys) :: context.assigned } := by
  obtain ⟨hset, target, harguments, rfl⟩ := h
  have hrole : Role.ofName? setter.name = some .assigns := (Role.ofName?_eq_some_iff _ _).mpr hset
  have hobserve := observe_eq_none (not_isEvidence_of_role hrole)
  have helements := hwrites.elements hkeys
  simp [Context.resolve, Context.next, hobserve, hrole, Context.assign, harguments, helements]

/-- The step: what does not assign a variable leaves it as it is. -/
theorem lookup_next {command : Invocation} {name : String}
    (h : ∀ values, ¬ Assigns command name values) (policy : Requiredness) (context : Context) :
    (context.next policy command).assigned.lookup name = context.assigned.lookup name := by
  have hpolicy : (context.next policy command).assigned =
      (context.next .byValidationCall command).assigned :=
    (assigned_next_never rfl policy command).symm.trans
      (assigned_next_never rfl .byValidationCall command)
  rw [hpolicy, lookup_next_of_not_assigns h]

/-- The run over commands that do not assign it. -/
theorem lookup_contextAfter {commands : List Invocation} {name : String}
    (h : ∀ command ∈ commands, ∀ values, ¬ Assigns command name values) (policy : Requiredness)
    (context : Context) :
    (contextAfter policy context commands).assigned.lookup name = context.assigned.lookup name := by
  induction commands generalizing context with
  | nil => rfl
  | cons command rest ih =>
    rw [contextAfter, List.foldl_cons, ← contextAfter,
      ih (fun other hother => h other (List.mem_cons_of_mem command hother)),
      lookup_next (h command List.mem_cons_self)]

/-- Evidence grows in the same way whatever is assigned. -/
theorem evidence_contextAfter {c d : Context} (h : c.evidence = d.evidence)
    (policy : Requiredness) (commands : List Invocation) :
    (contextAfter policy c commands).evidence = (contextAfter policy d commands).evidence := by
  induction commands generalizing c d with
  | nil => exact h
  | cons command rest ih =>
    have hnext : (c.next policy command).evidence = (d.next policy command).evidence := by
      rcases command_cases command with ⟨validated, hc⟩ | hc | hc | hc
      · rw [(hc policy c).2, (hc policy d).2]
        cases policy <;> simp [Context.validate, h]
      · rw [(hc policy c).2, (hc policy d).2]
        unfold Context.assign
        split <;> exact h
      · rw [(hc policy c).2, (hc policy d).2, h]
      · rw [(hc policy c).2, (hc policy d).2, h]
    exact ih hnext

/-- The three lists of a parsing call. -/
inductive ListPlace where
  | options
  | singleValue
  | multiValue

/-- The list stands in its place, and the two others around it in order. -/
def ListPlace.arrange {α β : Type} (place : ListPlace) (f : α → α → α → β)
    (list other another : α) : β :=
  match place with
  | .options => f list other another
  | .singleValue => f other list another
  | .multiValue => f other another list

def KeywordSpec.list (spec : KeywordSpec) : ListPlace → KeyList
  | .options => spec.options
  | .singleValue => spec.singleValue
  | .multiValue => spec.multiValue

/-- The spec with another source recorded for one list. -/
def KeywordSpec.withSource (spec : KeywordSpec) (place : ListPlace) (source : ListSource) :
    KeywordSpec :=
  match place with
  | .options => { spec with options.source := source }
  | .singleValue => { spec with singleValue.source := source }
  | .multiValue => { spec with multiValue.source := source }

/-- What a call with these arguments declares. -/
def Context.declares (context : Context) (policy : Requiredness)
    (first options single multi : String) : KeywordSpec :=
  { variablePrefix := unquote first
    options := context.keyList policy (unquote first) options
    singleValue := context.keyList policy (unquote first) single
    multiValue := context.keyList policy (unquote first) multi }

/-- A parsing call declares keyword arguments and leaves the context as it is. -/
theorem effect_of_parsing {call : Invocation}
    (h : lowerAscii call.name = "cmake_parse_arguments".toList) (policy : Requiredness)
    (context : Context) :
    context.resolve policy call = context.resolveCall policy call ∧
      context.next policy call = context := by
  have hrole : Role.ofName? call.name = some .parsesArguments :=
    (Role.ofName?_eq_some_iff _ _).mpr h
  have hobserve := observe_eq_none (not_isEvidence_of_role hrole)
  simp [Context.resolve, Context.next, hobserve, hrole]

theorem specs_of_parses {call : Invocation} {first options single multi : String}
    (h : ParsesArguments call first options single multi) (policy : Requiredness)
    (context : Context) :
    (context.resolve policy call).specs =
      [context.declares policy first options single multi] := by
  obtain ⟨hname, others, harguments⟩ := h
  have hspec : context.spec? policy call =
      some (context.declares policy first options single multi) :=
    spec?_eq_some_iff.mpr ⟨first, options, single, multi, others,
      callArguments_eq_iff.mpr harguments, rfl, rfl, rfl, rfl⟩
  rw [(effect_of_parsing hname policy context).1, Context.resolveCall, hspec]

section Call
variable {place : ListPlace} {call : Invocation} {first argument other another : String}

/-- A call adds one spec to those before it. -/
theorem specs_at_call (h : place.arrange (ParsesArguments call first) argument other another)
    (policy : Requiredness) (front after : List Node) :
    (resolveBody policy (front ++ .invocation call :: after)).specs =
      (resolveBody policy front).specs ++
        place.arrange ((contextAfter policy .empty (invocations front)).declares policy first)
          argument other another ::
        (resolveFrom policy (contextAfter policy .empty (invocations front))
          (invocations after)).specs := by
  generalize hcontext : contextAfter policy .empty (invocations front) = context
  have heffect : (context.resolve policy call).specs =
        [place.arrange (context.declares policy first) argument other another] ∧
      context.next policy call = context := by
    cases place <;>
      exact ⟨specs_of_parses h policy context, (effect_of_parsing h.1 policy context).2⟩
  rw [resolveBody, invocations_around, resolveFrom_append, hcontext, resolveFrom, heffect.2]
  simp only [Resolution.append, heffect.1]
  rfl

variable (context : Context) (policy : Requiredness)

theorem list_arrange (place : ListPlace) (first argument other another : String) :
    (place.arrange (context.declares policy first) argument other another).list place =
        context.keyList policy (unquote first) argument ∧
      (place.arrange (context.declares policy first) argument other another).variablePrefix =
        unquote first := by
  cases place <;> exact ⟨rfl, rfl⟩

/-- Arguments that stand for the same keys differ in the source of their list. -/
theorem arrange_withSource {argument' : String} {keys : List String} {source source' : ListSource}
    (h : context.keys argument = (keys, source)) (h' : context.keys argument' = (keys, source')) :
    place.arrange (context.declares policy first) argument other another =
      (place.arrange (context.declares policy first) argument' other another).withSource place
        source := by
  cases place <;>
    simp [ListPlace.arrange, Context.declares, Context.keyList, KeywordSpec.withSource, h, h']

end Call

/-- The command `d` is `c` with quotes around the argument at `i`, which has none. -/
def QuotedAt (i : Nat) (c d : Invocation) : Prop :=
  ∃ front a b back, c.arguments = front ++ a :: back ∧ front.length = i ∧
    (∀ t, ¬ IsWrapped t a.text.toList) ∧ IsWrapped a.text.toList b.text.toList ∧
    d = { c with arguments := front ++ b :: back }

/-- The position of the prefix among the arguments of a parsing call. -/
def prefixPlace (call : Invocation) : Nat :=
  if call.arguments.head?.map Argument.text = some "PARSE_ARGV" then 2 else 0

/-- Quotes where they do not show: around the prefix of a parsing call, or around what is
validated. -/
def QuotedIdly (c d : Invocation) : Prop :=
  lowerAscii c.name = "cmake_parse_arguments".toList ∧ QuotedAt (prefixPlace c) c d ∨
    isValidation c.name = true ∧ QuotedAt 0 c d

/-- A text in quotes does not select the signature with an argument index. -/
theorem IsWrapped.ne_parseArgvWord {t : List Char} {text : String} (h : IsWrapped t text.toList) :
    text ≠ "PARSE_ARGV" := by
  rintro rfl
  obtain ⟨q, hq, htext⟩ := h
  have hfirst : 'P' = q := (List.cons.inj htext).1
  subst hfirst
  simp [IsQuote] at hq

theorem callArguments_quoted {c d : Invocation} (h : QuotedAt (prefixPlace c) c d) :
    ∃ p q rest, callArguments c = p :: rest ∧ callArguments d = q :: rest ∧
      unquote q = unquote p := by
  obtain ⟨front, a, b, back, harguments, hplace, hbare, hwrapped, rfl⟩ := h
  have hrest : callArguments c = a.text :: back.map Argument.text ∧
      callArguments { c with arguments := front ++ b :: back } =
        b.text :: back.map Argument.text := by
    unfold prefixPlace at hplace
    split at hplace
    next hword =>
      obtain ⟨word, index, rfl⟩ := List.length_eq_two.mp hplace
      have hargv : word.text = "PARSE_ARGV" := by simpa [harguments] using hword
      simp [callArguments, parseArgvWord, harguments, hargv]
    next hword =>
      obtain rfl := List.length_eq_zero_iff.mp hplace
      have hplain : a.text ≠ "PARSE_ARGV" := by simpa [harguments] using hword
      simp [callArguments, parseArgvWord, harguments, hplain, hwrapped.ne_parseArgvWord]
  exact ⟨a.text, b.text, back.map Argument.text, hrest.1, hrest.2, unquote_wrapped hbare hwrapped⟩

/-- Of the first argument of a parsing call, the text without quotes is read. -/
theorem sameEffect_quoted_prefix {c d : Invocation}
    (hname : lowerAscii c.name = "cmake_parse_arguments".toList)
    (h : QuotedAt (prefixPlace c) c d) : SameEffect c d := by
  obtain ⟨p, q, rest, hc, hd, hunquote⟩ := callArguments_quoted h
  obtain ⟨front, a, b, back, -, -, -, -, rfl⟩ := h
  have hspec : ∀ (context : Context) (policy : Requiredness),
      context.spec? policy { c with arguments := front ++ b :: back } =
        context.spec? policy c := by
    intro context policy
    unfold Context.spec?
    rw [hc, hd]
    rcases rest with _ | ⟨o, _ | ⟨s, _ | ⟨m, others⟩⟩⟩ <;> simp only [hunquote]
  constructor
  · intro policy context
    rw [(effect_of_parsing hname policy context).1, (effect_of_parsing _ policy context).1,
      Context.resolveCall, Context.resolveCall, hspec]
    exact hname
  · intro policy context
    rw [(effect_of_parsing hname policy context).2, (effect_of_parsing _ policy context).2]
    exact hname

theorem sameEffect_quoted_validated {c d : Invocation} (hname : isValidation c.name = true)
    (h : QuotedAt 0 c d) : SameEffect c d := by
  obtain ⟨front, a, b, back, harguments, hplace, hbare, hwrapped, rfl⟩ := h
  obtain rfl := List.length_eq_zero_iff.mp hplace
  have hunquote := unquote_wrapped hbare hwrapped
  have hobserve : ∀ (policy : Requiredness) evidence,
      policy.observe evidence { c with arguments := b :: back } = policy.observe evidence c := by
    intro policy evidence
    cases policy <;> simp [Requiredness.observe, harguments, hunquote]
  have hrole := role_of_isValidation hname
  constructor
  · intro policy context
    simp [Context.resolve, hrole]
  · intro policy context
    simp [Context.next, hobserve, hrole]

theorem sameEffect_quoted {c d : Invocation} (h : QuotedIdly c d) : SameEffect c d := by
  rcases h with ⟨hname, h⟩ | ⟨hname, h⟩
  · exact sameEffect_quoted_prefix hname h
  · exact sameEffect_quoted_validated hname h

theorem resolveBody_quoted {c d : Invocation} (h : SameEffect c d) (policy : Requiredness)
    (before after : List Node) :
    resolveBody policy (before ++ .invocation d :: after) =
      resolveBody policy (before ++ .invocation c :: after) := by
  have hself : ∀ cs : List Invocation, List.Forall₂ SameEffect cs cs :=
    fun cs => List.forall₂_same.mpr fun _ _ => ⟨fun _ _ => rfl, fun _ _ => rfl⟩
  have hbody : List.Forall₂ SameEffect (invocations before ++ c :: invocations after)
      (invocations before ++ d :: invocations after) :=
    List.rel_append (hself _) (.cons h (hself _))
  rw [resolveBody, resolveBody, invocations_around, invocations_around]
  exact resolveFrom_congr hbody policy .empty

/-- One spelling: a command assigns the keys to the variable, and a call has a list in this place
that stands for them, with this source. -/
structure Spelling (keys : List String) (name : String) (place : ListPlace)
    (first other another : String) (setter call : Invocation) (source : ListSource) : Prop where
  assigns : ∃ values, Assigns setter name values ∧ WritesKeys keys values
  parses : ∃ argument, SpellsList name keys argument source ∧
    place.arrange (ParsesArguments call first) argument other another

/-- The context behind nodes that end with an assignment of the keys. -/
def assignedContext (policy : Requiredness) (name : String) (keys : List String)
    (before : List Node) : Context :=
  let start := contextAfter policy .empty (invocations before)
  { start with assigned := (name, keys) :: start.assigned }

/-- Behind the assignment, nothing shows how it was spelled. -/
theorem resolveBody_assigned {keys : List String} (hkeys : ∀ key ∈ keys, IsPlainKey key)
    {name : String} {setter : Invocation} {values : List Argument}
    (h : Assigns setter name values) (hwrites : WritesKeys keys values) (policy : Requiredness)
    (before between : List Node) :
    resolveBody policy (before ++ .invocation setter :: between) =
        (resolveBody policy before).append
          (resolveFrom policy (assignedContext policy name keys before) (invocations between)) ∧
      contextAfter policy .empty (invocations (before ++ .invocation setter :: between)) =
        contextAfter policy (assignedContext policy name keys before) (invocations between) := by
  obtain ⟨hresolve, hnext⟩ :=
    next_of_assigns h hkeys hwrites policy (contextAfter policy .empty (invocations before))
  constructor
  · rw [resolveBody, invocations_around, resolveFrom_append, resolveFrom, hresolve, hnext,
      Resolution.empty_append]
    rfl
  · rw [invocations_around, contextAfter_append]
    exact congrArg (contextAfter policy · (invocations between)) hnext

/-- The assignment is no evidence. -/
theorem evidence_assigned (policy : Requiredness) (name : String) (keys : List String)
    (before between : List Node) :
    (contextAfter policy .empty (invocations (before ++ between))).evidence =
      (contextAfter policy (assignedContext policy name keys before)
        (invocations between)).evidence := by
  have hstart : (contextAfter policy .empty (invocations before)).evidence =
      (assignedContext policy name keys before).evidence := rfl
  rw [invocations_append, contextAfter_append]
  exact evidence_contextAfter hstart policy (invocations between)

theorem keyList_of_keys {context : Context} {argument : String} {keys : List String}
    {source : ListSource} (h : context.keys argument = (keys, source)) (policy : Requiredness)
    (variablePrefix : String) :
    context.keyList policy variablePrefix argument =
      ⟨keys, keys.filter (policy.requires context.evidence variablePrefix), source⟩ := by
  rw [Context.keyList, h]

/-- However keys are spelled, a parsing call declares them: assigned in groups, bare or in quotes,
and referred to, or written into the call. The spellings differ in the source of the list and in
nothing else, and written into the call the keys need no assignment. Quotes around a prefix or
around what a command validates change nothing. -/
theorem keyLists_spelled_alike (policy : Requiredness) :
    (∀ keys name, (∀ key ∈ keys, IsPlainKey key) → IsVariableName name →
      ∀ before between after,
        (∀ command ∈ invocations between, ∀ values, ¬ Assigns command name values) →
      ∀ place first other another, ∃ earlier, ∃ spec : KeywordSpec, ∃ later,
        (spec.list place).keys = keys ∧
        (∀ setter call source, Spelling keys name place first other another setter call source →
          let front := before ++ .invocation setter :: between
          (resolveBody policy front).specs = earlier ∧
          (resolveBody policy (front ++ .invocation call :: after)).specs =
            earlier ++ spec.withSource place source :: later) ∧
        ∀ call argument, IsWrapped (joinedKeys keys) argument.toList →
          place.arrange (ParsesArguments call first) argument other another →
          ∃ alone rest,
            (resolveBody policy (before ++ between ++ .invocation call :: after)).specs =
              (resolveBody policy (before ++ between)).specs ++ alone :: rest ∧
            alone.variablePrefix = spec.variablePrefix ∧
            alone.list place = { spec.list place with source := literalSource keys }) ∧
    ∀ before after c d, QuotedIdly c d →
      resolveBody policy (before ++ .invocation d :: after) =
        resolveBody policy (before ++ .invocation c :: after) := by
  constructor
  · intro keys name hkeys hname before between after hbetween place first other another
    let known := assignedContext policy name keys before
    let context := contextAfter policy known (invocations between)
    have hknown : context.assigned.lookup name = some keys := by
      rw [lookup_contextAfter hbetween]
      simp [known, assignedContext]
    -- The bare reference stands for all spellings.
    let reference := String.ofList (referenceText name)
    have hreference : context.keys reference = (keys, .reference name true) :=
      keys_reference hname (.inl String.toList_ofList) hknown
    have hspec := list_arrange context policy place first reference other another
    refine ⟨((resolveBody policy before).append
        (resolveFrom policy known (invocations between))).specs,
      place.arrange (context.declares policy first) reference other another,
      (resolveFrom policy context (invocations after)).specs, ?_, ?_, ?_⟩
    · rw [hspec.1, keyList_of_keys hreference]
    · rintro setter call source ⟨⟨values, hassigns, hwrites⟩, argument, hspells, hparses⟩ front
      obtain ⟨hbody, hcontext⟩ := resolveBody_assigned hkeys hassigns hwrites policy before between
      refine ⟨congrArg Resolution.specs hbody, ?_⟩
      rw [specs_at_call hparses, hbody, hcontext,
        arrange_withSource _ policy (hspells.keys hname hkeys hknown) hreference]
    · intro call argument hwrapped hparses
      refine ⟨_, _, specs_at_call hparses policy (before ++ between) after, ?_, ?_⟩
      · rw [(list_arrange _ policy place first argument other another).2, hspec.2]
      · rw [(list_arrange _ policy place first argument other another).1, hspec.1,
          keyList_of_keys hreference, keyList_of_keys (keys_literal hkeys hwrapped _),
          evidence_assigned policy name keys before between]
  · intro before after c d h
    exact resolveBody_quoted (sameEffect_quoted h) policy before after

/-- Groups in both kinds of quotes, one with an empty element, behind an older value and before a
validation; the call has the signature with an argument index. Against it stand the same keys in
the call, and quotes around the prefix. -/
theorem keyLists_spelled_alike_singleValue :
    let command (name : String) (texts : List String) : Invocation :=
      ⟨name, texts.map (⟨.quoted, ·⟩), ⟨0, 0⟩, 1⟩
    let keys := ["A", "B", "C"]
    let setter := command "set" ["X", "\x22A;;B\x22", "\x27C\x27"]
    let before := [bareCall "set" ["X", "old"]]
    let between := [bareCall "check_var_defined" ["P_B"], bareCall "set" ["Y", "Z"]]
    let referring := command "cmake_parse_arguments"
      ["PARSE_ARGV", "1", "P", "\x22\x22", "\x22$\x7bX\x7d\x22", "$\x7bY\x7d"]
    let writing := command "cmake_parse_arguments"
      ["P", "\x22\x22", "\x22A;B;C\x22", "$\x7bY\x7d"]
    let quoted := command "cmake_parse_arguments"
      ["\x22P\x22", "\x22\x22", "\x22A;B;C\x22", "$\x7bY\x7d"]
    let spelling := Spelling keys "X" .singleValue "P" "\x22\x22" "$\x7bY\x7d" setter
    let front := before ++ .invocation setter :: between
    let spec : KeywordSpec := ⟨"P", ⟨[], [], .emptyLiteral⟩,
      ⟨keys, ["B"], .reference "X" true⟩, ⟨["Z"], [], .reference "Y" true⟩⟩
    (∀ key ∈ keys, IsPlainKey key) ∧ IsVariableName "X" ∧
    (∀ c ∈ invocations between, ∀ values, ¬ Assigns c "X" values) ∧
    spelling referring (.reference "X" true) ∧ spelling writing .literal ∧
    QuotedIdly writing quoted ∧
    (resolveBody .byValidationCall (front ++ [.invocation referring])).specs = [spec] ∧
    (resolveBody .byValidationCall (front ++ [.invocation writing])).specs =
      [spec.withSource .singleValue .literal] ∧
    (∃ alone rest, (resolveBody .byValidationCall
        (before ++ between ++ [.invocation writing])).specs =
          (resolveBody .byValidationCall (before ++ between)).specs ++ alone :: rest ∧
      alone.list .singleValue = ⟨keys, ["B"], .literal⟩) ∧
    resolveBody .byValidationCall (front ++ [.invocation quoted]) =
      resolveBody .byValidationCall (front ++ [.invocation writing]) := by
  intro command keys setter before between referring writing quoted spelling front spec
  have hkeys : ∀ key ∈ keys, IsPlainKey key := by
    intro key hkey
    simp only [keys, List.mem_cons, List.not_mem_nil, or_false] at hkey
    rcases hkey with rfl | rfl | rfl <;>
      exact ⟨by decide, by decide, by simp [IsQuote], by decide⟩
  have hname : IsVariableName "X" := ⟨by decide, by decide⟩
  have hbetween : ∀ c ∈ invocations between, ∀ values, ¬ Assigns c "X" values := by
    rintro c hc values ⟨hset, target, harguments, htarget⟩
    rcases List.mem_cons.mp hc with rfl | hc
    · exact absurd hset (by decide)
    · obtain rfl := List.mem_singleton.mp hc
      obtain rfl := (List.cons.inj harguments).1
      exact absurd htarget (by decide)
  have hassigns : ∃ values, Assigns setter "X" values ∧ WritesKeys keys values := by
    refine ⟨_, ⟨by decide, _, rfl, rfl⟩, [["A", "B"], ["C"]], rfl, .cons ?_ (.cons ?_ .nil)⟩
    · exact ⟨_, ⟨[['A'], [], ['B']], by decide, rfl⟩, .inr ⟨'\x22', .inl rfl, rfl⟩⟩
    · exact ⟨_, ⟨[['C']], by decide, rfl⟩, .inr ⟨'\x27', .inr rfl, rfl⟩⟩
  have hreferring : spelling referring (.reference "X" true) :=
    ⟨hassigns, _, .reference (.inr ⟨'\x22', .inl rfl, rfl⟩), by decide, [], .inr ⟨"1", rfl⟩⟩
  have hwriting : spelling writing .literal :=
    ⟨hassigns, _, .literal ⟨'\x22', .inl rfl, rfl⟩, by decide, [], .inl ⟨rfl, by decide⟩⟩
  have hquoted : QuotedIdly writing quoted :=
    .inl ⟨by decide, [], _, _, _, rfl, rfl, not_isWrapped (by simp [IsQuote]),
      ⟨'\x22', .inl rfl, rfl⟩, rfl⟩
  obtain ⟨hspelled, hidle⟩ := keyLists_spelled_alike .byValidationCall
  obtain ⟨earlier, found, later, -, hsame, hliteral⟩ := hspelled keys "X" hkeys hname before
    between [] hbetween .singleValue "P" "\x22\x22" "$\x7bY\x7d"
  have hspec :
      (resolveBody .byValidationCall (front ++ [.invocation referring])).specs = [spec] := by
    decide +kernel
  obtain ⟨hearlier, hreferred⟩ := hsame setter referring _ hreferring
  obtain ⟨-, hwritten⟩ := hsame setter writing _ hwriting
  obtain rfl : [] = earlier := Eq.trans (by decide +kernel) hearlier
  obtain ⟨hfound, rfl⟩ := List.cons.inj (hspec.symm.trans hreferred)
  obtain ⟨alone, rest, halone, -, hlist⟩ := hliteral writing _ ⟨'\x22', .inl rfl, rfl⟩
    ⟨by decide, [], .inl ⟨rfl, by decide⟩⟩
  refine ⟨hkeys, hname, hbetween, hreferring, hwriting, hquoted, hspec, ?_,
    ⟨alone, rest, halone, hlist.trans ?_⟩, hidle front [] writing quoted hquoted⟩
  · rw [hfound]
    exact hwritten
  · exact congrArg (fun s : KeywordSpec => { s.singleValue with source := .literal }) hfound.symm

end CMakeManual.Manual
