import CMakeManual.Proofs.Run.Options
import Mathlib.Data.List.Forall2
import Mathlib.Data.List.Nodup
import Mathlib.Data.List.TakeWhile

/-! Command lines as groups of words. What a caller chooses is written as one group of words for
each value and each switch, in any order and each in any of its spellings. Every such command line
is accepted, and its settings are the choice with the defaults for the rest. -/
namespace CMakeManual.Run
open Manual Document

/-- The long name of an option. The input has none: its value stands alone. -/
def Named.longName? : Named → Option String
  | .slot .input => none
  | .slot .output => some "output"
  | .slot .title => some "title"
  | .slot .format => some "format"
  | .slot .tokenFile => some "lex"
  | .slot .nodeFile => some "parse"
  | .switch .includePrivate => some "include-private"
  | .switch .noRequiredHeuristic => some "no-required-heuristic"
  | .switch .listCommands => some "list-commands"
  | .help => some "help"
  | .version => some "version"

def Named.letter? : Named → Option Char
  | .slot .output => some 'o'
  | .slot .title => some 't'
  | .help => some 'h'
  | .version => some 'V'
  | .slot _ | .switch _ => none

section Names
variable {option : Named} {name : String} {letter : Char}

theorem Named.ofLong?_longName (h : option.longName? = some name) :
    Named.ofLong? name = some option := by
  unfold Named.longName? at h
  split at h <;> cases h <;> rfl

theorem Named.ofShort?_letter (h : option.letter? = some letter) :
    Named.ofShort? letter = some option := by
  unfold Named.letter? at h
  split at h <;> cases h <;> rfl

theorem Named.longName_plain (h : option.longName? = some name) :
    name ≠ "" ∧ ∀ c ∈ name.toList, (c != '=') = true := by
  unfold Named.longName? at h
  split at h <;> cases h <;> simp

theorem Named.letter_ne_dash (h : option.letter? = some letter) : letter ≠ '-' := by
  unfold Named.letter? at h
  split at h <;> cases h <;> decide

end Names

section Shapes
variable {option : Named} {name word : String} {letter : Char}

theorem Word.ofString_dashes {r : List Char} (hr : r ≠ [])
    (hword : word.toList = '-' :: '-' :: r) :
    Word.ofString word = .long (String.ofList (r.takeWhile (· != '=')))
      ((r.dropWhile (· != '=')).tail?.map String.ofList) := by
  unfold Word.ofString
  rw [hword]
  cases r with
  | nil => exact absurd rfl hr
  | cons c r => cases h : (c :: r).dropWhile (· != '=') <;> simp [h]

theorem Named.ofString_long (h : option.longName? = some name) :
    Word.ofString ("--" ++ name) = .long name none := by
  obtain ⟨hname, hplain⟩ := longName_plain h
  rw [Word.ofString_dashes (String.toList_eq_nil_iff.not.mpr hname) (by simp),
    List.takeWhile_eq_self_iff.mpr hplain, List.dropWhile_eq_nil_iff.mpr hplain,
    String.ofList_toList]
  rfl

theorem Named.ofString_valued (h : option.longName? = some name) (value : String) :
    Word.ofString ("--" ++ name ++ "=" ++ value) = .long name (some value) := by
  have hplain := (longName_plain h).2
  have hword : ("--" ++ name ++ "=" ++ value).toList =
      '-' :: '-' :: (name.toList ++ '=' :: value.toList) := by simp
  rw [Word.ofString_dashes (by simp) hword, List.takeWhile_append_of_pos hplain,
    List.dropWhile_append_of_pos hplain]
  simp

theorem Word.ofString_short (hletter : letter ≠ '-') {rest : List Char}
    (hword : word.toList = '-' :: letter :: rest) :
    Word.ofString word = .short (letter :: rest) := by
  unfold Word.ofString
  rw [hword]
  split <;> simp_all

/-- The value can stand in a word of its own, where it must not look like an option. -/
def Detachable (value : String) : Prop := value.toList.head? ≠ some '-'

/-- The value can follow a letter directly, where an equals sign would not be part of it. -/
def Adhesive (value : String) : Prop := value ≠ "" ∧ value.toList.head? ≠ some '='

theorem Detachable.ofString {value : String} (h : Detachable value) :
    Word.ofString value = .plain := by
  unfold Detachable at h
  unfold Word.ofString
  split <;> simp_all

theorem Adhesive.attachedValue {value : String} (h : Adhesive value) :
    attachedValue value.toList = some value := by
  obtain ⟨hvalue, hequals⟩ := h
  unfold Run.attachedValue
  split
  next hnil => exact absurd (String.toList_eq_nil_iff.mp hnil) hvalue
  next heq => simp [heq] at hequals
  next => rw [String.ofList_toList]

end Shapes

/-- Words that belong together: a value with the option it is for, or a switch. -/
inductive Group where
  | value (slot : Slot) (text : String)
  | switch (switch : Switch)
  deriving DecidableEq

def Group.option : Group → Named
  | .value slot _ => .slot slot
  | .switch turned => .switch turned

/-- The ways to write a group. An input stands alone. Any other value stands in a word of its own
behind the long name or the letter, or it is attached: to the long name by an equals sign, to the
letter with one or without. -/
inductive Group.Spelling : Group → List String → Prop where
  | alone {value : String} (hvalue : Detachable value) : Spelling (.value .input value) [value]
  | long {slot : Slot} {name value : String} (h : (Named.slot slot).longName? = some name)
      (hvalue : Detachable value) : Spelling (.value slot value) ["--" ++ name, value]
  | longAttached {slot : Slot} {name : String} (h : (Named.slot slot).longName? = some name)
      (value : String) : Spelling (.value slot value) ["--" ++ name ++ "=" ++ value]
  | short {slot : Slot} {letter : Char} {value : String}
      (h : (Named.slot slot).letter? = some letter) (hvalue : Detachable value) :
      Spelling (.value slot value) ["-".push letter, value]
  | shortAttached {slot : Slot} {letter : Char} {value : String}
      (h : (Named.slot slot).letter? = some letter) (hvalue : Adhesive value) :
      Spelling (.value slot value) ["-".push letter ++ value]
  | shortEquals {slot : Slot} {letter : Char} (h : (Named.slot slot).letter? = some letter)
      (value : String) : Spelling (.value slot value) ["-".push letter ++ "=" ++ value]
  | switch {switch : Switch} {name : String} (h : (Named.switch switch).longName? = some name) :
      Spelling (.switch switch) ["--" ++ name]

/-- A path that can be given. -/
abbrev GivenPath := { path : String // path ≠ "" }

def Format.word : Format → String
  | .markdown => "markdown"
  | .json => "json"

/-- What a caller can ask for instead of a document. -/
inductive Alternative where
  | tokens (file : GivenPath)
  | nodes (file : GivenPath)
  | commandTable
  deriving DecidableEq

def Alternative.mode : Alternative → Mode
  | .tokens file => .tokens file.val
  | .nodes file => .nodes file.val
  | .commandTable => .commandTable

def Alternative.tokenFile? : Alternative → Option GivenPath
  | .tokens file => some file
  | .nodes _ | .commandTable => none

def Alternative.nodeFile? : Alternative → Option GivenPath
  | .nodes file => some file
  | .tokens _ | .commandTable => none

/-- What a caller chooses: at most one value for every slot, each switch or not, and at most one
alternative to a document. -/
structure Choice where
  input : Option GivenPath
  output : Option GivenPath
  title : Option String
  format : Option Format
  includePrivate : Bool
  noRequiredHeuristic : Bool
  alternative : Option Alternative

def Choice.value? (choice : Choice) : Slot → Option String
  | .input => choice.input.map Subtype.val
  | .output => choice.output.map Subtype.val
  | .title => choice.title
  | .format => choice.format.map Format.word
  | .tokenFile => (choice.alternative.bind Alternative.tokenFile?).map Subtype.val
  | .nodeFile => (choice.alternative.bind Alternative.nodeFile?).map Subtype.val

def Choice.turnsOn (choice : Choice) : Switch → Bool
  | .includePrivate => choice.includePrivate
  | .noRequiredHeuristic => choice.noRequiredHeuristic
  | .listCommands => choice.alternative == some .commandTable

/-- The settings that are chosen. What is left open is a default. -/
def Choice.settings (choice : Choice) : Settings where
  input := (choice.input.map Subtype.val).getD "utils.cmake"
  output := (choice.output.map Subtype.val).getD "docs.md"
  title := choice.title.getD "CMake Documentation"
  format := choice.format.getD .markdown
  includePrivate := choice.includePrivate
  requiredness := if choice.noRequiredHeuristic then .never else .byValidationCall
  mode := (choice.alternative.map Alternative.mode).getD .document

def Slot.all : List Slot := [.input, .output, .title, .format, .tokenFile, .nodeFile]

def Switch.all : List Switch := [.includePrivate, .noRequiredHeuristic, .listCommands]

/-- One group for each slot with a value and one for each switch that is on. -/
def Choice.groups (choice : Choice) : List Group :=
  Slot.all.filterMap (fun slot => (choice.value? slot).map (Group.value slot)) ++
    (Switch.all.filter choice.turnsOn).map Group.switch

section Choices
variable {choice : Choice}

theorem Choice.value_mem_groups {slot : Slot} {value : String} :
    .value slot value ∈ choice.groups ↔ choice.value? slot = some value := by
  have hslot : slot ∈ Slot.all := by cases slot <;> decide
  simp [groups, hslot]

theorem Choice.switch_mem_groups {switch : Switch} :
    .switch switch ∈ choice.groups ↔ choice.turnsOn switch = true := by
  have hswitch : switch ∈ Switch.all := by cases switch <;> decide
  simp [groups, hswitch]

theorem Choice.options_nodup (choice : Choice) : (choice.groups.map Group.option).Nodup := by
  rw [groups, List.map_append, List.map_filterMap, List.map_map]
  refine List.Nodup.append ?_ ?_ ?_
  · refine List.Nodup.filterMap ?_ (by decide : Slot.all.Nodup)
    intro slot other option hslot hother
    obtain ⟨group, hgroup, rfl⟩ := Option.map_eq_some_iff.mp hslot
    obtain ⟨second, hsecond, hoption⟩ := Option.map_eq_some_iff.mp hother
    obtain ⟨value, -, rfl⟩ := Option.map_eq_some_iff.mp hgroup
    obtain ⟨value, -, rfl⟩ := Option.map_eq_some_iff.mp hsecond
    exact (Named.slot.inj hoption).symm
  · refine List.Nodup.map ?_ (List.Nodup.filter _ (by decide : Switch.all.Nodup))
    intro switch other h
    exact Named.switch.inj h
  · intro option hvalue hswitch
    obtain ⟨slot, -, hslot⟩ := List.mem_filterMap.mp hvalue
    obtain ⟨switch, -, rfl⟩ := List.mem_map.mp hswitch
    simp [Group.option] at hslot

/-- Every value that is chosen is one that its slot admits. -/
theorem Choice.admits {slot : Slot} {value : String} (h : choice.value? slot = some value) :
    slot.admits value = true := by
  cases slot with
  | title => rfl
  | format =>
    obtain ⟨format, -, rfl⟩ := Option.map_eq_some_iff.mp h
    cases format <;> rfl
  | input | output | tokenFile | nodeFile =>
    obtain ⟨path, -, rfl⟩ := Option.map_eq_some_iff.mp h
    exact bne_iff_ne.mpr path.property

end Choices

/-- What is given with one more group. -/
def Given.add (given : Given) : Group → Given
  | .value slot value => { given with values := (slot, value) :: given.values }
  | .switch switch => { given with switches := switch :: given.switches }

/-- The group can be added: its option is new, and admits its value. -/
structure Group.Fits (group : Group) (given : Given) : Prop where
  fresh : ¬ given.Has group.option
  admitted : ∀ slot value, group = .value slot value → slot.admits value = true

theorem Given.has_add {given : Given} {group : Group} {option : Named} :
    (given.add group).Has option ↔ given.Has option ∨ option = group.option := by
  rcases group with ⟨slot, value⟩ | switch <;> rcases option with other | other | _ | _ <;>
    simp [add, Has, Group.option, or_comm, exists_or]

theorem Given.put_of_fits {given : Given} {slot : Slot} {value : String}
    (h : (Group.value slot value).Fits given) :
    given.put slot (some value) = .ok (given.add (.value slot value)) := by
  have hnone : (given.values.lookup slot).isSome = false := by
    rw [Bool.eq_false_iff]
    intro hsome
    obtain ⟨text, htext⟩ := Option.isSome_iff_exists.mp hsome
    obtain ⟨front, back, hvalues, -⟩ := List.lookup_eq_some_iff.mp htext
    exact h.fresh ⟨text, by simp [hvalues]⟩
  simp [put, hnone, h.admitted slot value rfl, add]

theorem Given.switchOn_of_fits {given : Given} {switch : Switch}
    (h : (Group.switch switch).Fits given) :
    given.switchOn switch = .ok (given.add (.switch switch)) := by
  have hfresh : switch ∉ given.switches := h.fresh
  simp [switchOn, hfresh, add]

/-- The reading stands behind whole groups: it waits for no value, `given` is accepted, and a
positional word that has been met is the input. -/
structure Progress.Behind (p : Progress) (given : Given) : Prop where
  settled : p.settle = .ok given
  input : p.positional = true → given.Has (.slot .input)

section Reading
variable {p : Progress} {given : Given}

theorem Progress.Behind.not_waiting (h : p.Behind given) (slot : Slot) :
    p.pending ≠ some (slot, none) := by
  intro hpending
  have hsettled := h.settled
  simp [settle, hpending, Given.put] at hsettled

theorem Progress.Behind.resume (h : p.Behind given) (group : Group) :
    (p.resume (given.add group)).Behind (given.add group) :=
  ⟨rfl, fun hpositional => Given.has_add.mpr (.inl (h.input hpositional))⟩

theorem Progress.Behind.takeValue (h : p.Behind given) {slot : Slot} {value : String}
    (hfits : (Group.value slot value).Fits given) :
    p.takeNamed (some (.slot slot)) (some value) =
      .ok (p.resume (given.add (.value slot value))) := by
  simp [takeNamed, attach, h.settled, Except.bind, Except.map, Given.put_of_fits hfits]

/-- The progress behind an option and the value in the word after it. -/
def Progress.holding (p : Progress) (given : Given) (slot : Slot) (value : String) : Progress :=
  { p with given := given, pending := some (slot, some value) }

theorem Progress.Behind.holding (h : p.Behind given) {slot : Slot} {value : String}
    (hfits : (Group.value slot value).Fits given) :
    (p.holding given slot value).Behind (given.add (.value slot value)) :=
  ⟨Given.put_of_fits hfits, fun hpositional => Given.has_add.mpr (.inl (h.input hpositional))⟩

theorem Progress.Behind.await_value (h : p.Behind given) (slot : Slot) {value : String}
    (hvalue : Detachable value) (rest : List String) :
    ((p.takeNamed (some (.slot slot)) none).bind fun q => q.read false (value :: rest)) =
      (p.holding given slot value).read false rest := by
  simp [takeNamed, await, h.settled, Except.bind, Except.map, read, hvalue.ofString, takePlain,
    Progress.holding]

theorem Progress.read_long {word name : String} {option : Named} {value : Option String}
    (hword : Word.ofString word = .long name value) (hname : option.longName? = some name)
    (rest : List String) :
    p.read false (word :: rest) =
      (p.takeNamed (some option) value).bind fun q => q.read false rest := by
  simp [read, hword, Named.ofLong?_longName hname]

theorem Progress.read_short {word : String} {slot : Slot} {letter : Char}
    (hletter : (Named.slot slot).letter? = some letter) (behind : List Char)
    (hword : word.toList = '-' :: letter :: behind) (rest : List String) :
    p.read false (word :: rest) =
      (p.takeNamed (some (.slot slot)) (attachedValue behind)).bind fun q => q.read false rest := by
  have hshape := Word.ofString_short (Named.letter_ne_dash hletter) hword
  simp [read, hshape, takeShort, Named.ofShort?_letter hletter]

theorem Progress.Behind.read_input (h : p.Behind given) {value : String}
    (hvalue : Detachable value) (hfits : (Group.value .input value).Fits given) :
    ∃ q : Progress, q.Behind (given.add (.value .input value)) ∧
      ∀ rest, p.read false (value :: rest) = q.read false rest := by
  have hfirst : p.positional = false :=
    Bool.eq_false_iff.mpr fun hpositional => hfits.fresh (h.input hpositional)
  have htake : p.takePlain value = p.takePositional value := by
    unfold takePlain
    split
    next slot hpending => exact absurd hpending (h.not_waiting slot)
    next => rfl
  refine ⟨⟨given, some (.input, some value), true⟩, ⟨Given.put_of_fits hfits, ?_⟩, ?_⟩
  · exact fun _ => Given.has_add.mpr (.inr rfl)
  · intro rest
    simp [read, hvalue.ofString, htake, takePositional, hfirst, h.settled, Except.bind,
      Except.map]

/-- The step: a group that fits is added, in whatever way it is written. -/
theorem Progress.Behind.read_group (h : p.Behind given) {group : Group} (hfits : group.Fits given)
    {words : List String} (hwords : group.Spelling words) :
    ∃ q : Progress, q.Behind (given.add group) ∧
      ∀ rest, p.read false (words ++ rest) = q.read false rest := by
  cases hwords with
  | alone hvalue => exact h.read_input hvalue hfits
  | @long slot name value hname hvalue =>
    refine ⟨p.holding given slot value, h.holding hfits, fun rest => ?_⟩
    exact (read_long (Named.ofString_long hname) hname _).trans (h.await_value slot hvalue rest)
  | longAttached hname value =>
    refine ⟨p.resume _, h.resume _, fun rest => ?_⟩
    refine (read_long (Named.ofString_valued hname value) hname rest).trans ?_
    rw [h.takeValue hfits]
    rfl
  | @short slot letter value hletter hvalue =>
    refine ⟨p.holding given slot value, h.holding hfits, fun rest => ?_⟩
    exact (read_short hletter [] (by simp) _).trans (h.await_value slot hvalue rest)
  | @shortAttached slot letter value hletter hvalue =>
    refine ⟨p.resume _, h.resume _, fun rest => ?_⟩
    refine (read_short hletter value.toList (by simp) rest).trans ?_
    rw [hvalue.attachedValue, h.takeValue hfits]
    rfl
  | shortEquals hletter value =>
    refine ⟨p.resume _, h.resume _, fun rest => ?_⟩
    refine (read_short hletter ('=' :: value.toList) (by simp) rest).trans ?_
    rw [attachedValue, String.ofList_toList, h.takeValue hfits]
    rfl
  | switch hname =>
    refine ⟨p.resume _, h.resume _, fun rest => ?_⟩
    refine (read_long (Named.ofString_long hname) hname rest).trans ?_
    simp [takeNamed, h.settled, Except.bind, Except.map, Given.switchOn_of_fits hfits]

/-- The run: groups with different options are all added. -/
theorem Progress.Behind.read_groups (h : p.Behind given) {groups : List Group}
    {lines : List (List String)} (hlines : List.Forall₂ Group.Spelling groups lines)
    (hfits : ∀ group ∈ groups, group.Fits given) (hoptions : (groups.map Group.option).Nodup) :
    p.read false lines.flatten = .ok (groups.foldl Given.add given) := by
  -- Each group leaves the reading between groups again and takes no option but its own, so the
  -- groups behind it still fit.
  induction hlines generalizing p given with
  | nil => exact h.settled
  | @cons group words groups lines hwords _ ih =>
    obtain ⟨hnew, hlater⟩ := List.nodup_cons.mp hoptions
    obtain ⟨q, hq, hread⟩ := h.read_group (hfits group List.mem_cons_self) hwords
    rw [List.flatten_cons, hread, List.foldl_cons]
    refine ih hq (fun other hother => ?_) hlater
    have hfitted := hfits other (List.mem_cons_of_mem _ hother)
    refine ⟨fun hhas => ?_, hfitted.admitted⟩
    rcases Given.has_add.mp hhas with hhas | hsame
    · exact hfitted.fresh hhas
    · exact hnew (hsame ▸ List.mem_map_of_mem hother)

end Reading

section Groups
variable {groups : List Group} {given : Given}

theorem Given.lookup_of_not_mem {slot : Slot} (h : ∀ value, .value slot value ∉ groups) :
    (groups.foldl add given).values.lookup slot = given.values.lookup slot := by
  induction groups generalizing given with
  | nil => rfl
  | cons group groups ih =>
    rw [List.foldl_cons, ih fun value hvalue => h value (List.mem_cons_of_mem _ hvalue)]
    rcases group with ⟨other, value⟩ | switch
    · have hother : slot ≠ other := by
        rintro rfl
        exact h value List.mem_cons_self
      simp [add, List.lookup_cons, beq_eq_false_iff_ne.mpr hother]
    · rfl

theorem Given.lookup_of_mem (hoptions : (groups.map Group.option).Nodup) {slot : Slot}
    {value : String} (h : .value slot value ∈ groups) :
    (groups.foldl add given).values.lookup slot = some value := by
  induction groups generalizing given with
  | nil => simp at h
  | cons group groups ih =>
    obtain ⟨hnew, hlater⟩ := List.nodup_cons.mp hoptions
    rcases List.mem_cons.mp h with rfl | h
    · have honly : ∀ other, .value slot other ∉ groups :=
        fun other hother => hnew (List.mem_map.mpr ⟨_, hother, rfl⟩)
      rw [List.foldl_cons, lookup_of_not_mem honly]
      simp [add]
    · exact ih hlater h

theorem Given.mem_switches {switch : Switch} :
    switch ∈ (groups.foldl add given).switches ↔
      switch ∈ given.switches ∨ .switch switch ∈ groups := by
  induction groups generalizing given with
  | nil => simp
  | cons group groups ih =>
    rw [List.foldl_cons, ih]
    rcases group with ⟨slot, value⟩ | other
    · simp [add]
    · simp [add, or_assoc, or_left_comm]

end Groups

section Settings
variable {choice : Choice} {given : Given}

/-- What is given is what was chosen. -/
structure Choice.Gives (choice : Choice) (given : Given) : Prop where
  values : ∀ slot, given.values.lookup slot = choice.value? slot
  switches : ∀ switch, switch ∈ given.switches ↔ choice.turnsOn switch = true

theorem Choice.gives_of_perm {groups : List Group} (h : groups.Perm choice.groups) :
    choice.Gives (groups.foldl Given.add .empty) where
  values := by
    intro slot
    have hoptions := (h.map Group.option).nodup_iff.mpr choice.options_nodup
    cases hvalue : choice.value? slot with
    | none =>
      refine Given.lookup_of_not_mem fun value hmem => ?_
      have hchosen := value_mem_groups.mp (h.mem_iff.mp hmem)
      simp [hvalue] at hchosen
    | some value => exact Given.lookup_of_mem hoptions (h.mem_iff.mpr (value_mem_groups.mpr hvalue))
  switches := by
    intro switch
    rw [Given.mem_switches, h.mem_iff, switch_mem_groups]
    simp [Given.empty]

theorem Choice.Gives.modes (h : choice.Gives given) :
    given.modes = (choice.alternative.map Alternative.mode).toList := by
  rw [Given.modes, h.values, h.values]
  simp only [h.switches]
  rcases halternative : choice.alternative with _ | _ | _ | _ <;>
    simp [value?, turnsOn, halternative, Alternative.mode, Alternative.tokenFile?,
      Alternative.nodeFile?]

theorem Choice.Gives.settings (h : choice.Gives given) : given.settings = .ok choice.settings := by
  have hformat : (choice.value? .format).bind Format.ofWord? = choice.format := by
    rcases hformat : choice.format with _ | _ | _ <;> simp [value?, hformat] <;> rfl
  have hprivate : decide (.includePrivate ∈ given.switches) = choice.includePrivate :=
    Bool.eq_iff_iff.mpr (decide_eq_true_iff.trans (h.switches .includePrivate))
  have hrequiredness : (if .noRequiredHeuristic ∈ given.switches then Requiredness.never
      else .byValidationCall) = choice.settings.requiredness :=
    if_congr (h.switches .noRequiredHeuristic) rfl rfl
  unfold Given.settings
  simp only [h.values, h.modes, hformat, hprivate, hrequiredness]
  cases halternative : choice.alternative <;>
    simp [Choice.settings, halternative, value?, defaultTitle]

/-- Every order of the groups of a choice, each in any spelling, gives the settings chosen. -/
theorem readArguments_of_groups {groups : List Group} (hgroups : groups.Perm choice.groups)
    {lines : List (List String)} (hlines : List.Forall₂ Group.Spelling groups lines) :
    readArguments lines.flatten = .ok choice.settings := by
  have hstart : Progress.start.Behind .empty := ⟨rfl, by simp [Progress.start]⟩
  have hfits : ∀ group ∈ groups, group.Fits .empty := by
    intro group hgroup
    refine ⟨by rcases group with _ | _ <;> simp [Given.Has, Given.empty, Group.option], ?_⟩
    rintro slot value rfl
    exact Choice.admits (Choice.value_mem_groups.mp (hgroups.mem_iff.mp hgroup))
  have hoptions := (hgroups.map Group.option).nodup_iff.mpr choice.options_nodup
  rw [readArguments, hstart.read_groups hlines hfits hoptions]
  exact (Choice.gives_of_perm hgroups).settings

end Settings

end CMakeManual.Run
