import CMakeManual.Proofs.Run.Groups
import Mathlib.Data.List.Perm.Subperm

/-! Options that exclude each other. No command line is accepted that has an option twice or asks
for two modes, so at most one mode is ever given, and the order in which modes are tried is of no
account. -/
namespace CMakeManual.Run

theorem Given.put_fresh {given next : Given} {slot : Slot} {value : Option String}
    (h : given.put slot value = .ok next) : ¬ given.Has (.slot slot) := by
  intro hhas
  cases value <;> simp [put, lookup_isSome hhas] at h

theorem Given.switchOn_fresh {given next : Given} {switch : Switch}
    (h : given.switchOn switch = .ok next) : ¬ given.Has (.switch switch) := by
  intro hhas
  have hmem : switch ∈ given.switches := hhas
  simp [switchOn, hmem] at h

/-- The option that waits to be accepted has not been accepted before. -/
def Progress.AwaitsFresh (p : Progress) : Prop :=
  ∀ slot value, p.pending = some (slot, value) → ¬ p.given.Has (.slot slot)

theorem Word.ofString_ne_short_nil (word : String) : Word.ofString word ≠ .short [] := by
  unfold Word.ofString
  split <;> simp

section Steps
variable {p q : Progress} {given : Given}

theorem Progress.awaitsFresh_of_settle (h : p.settle = .ok given) : p.AwaitsFresh := by
  intro slot value hpending
  rw [settle, hpending] at h
  exact Given.put_fresh h

/-- What taking an option does: it settles what was pending, and then the option is new, or it is
one that waits for its value. -/
theorem Progress.takeNamed_cases {option : Named} {value : Option String}
    (h : p.takeNamed (some option) value = .ok q) :
    ∃ given, p.settle = .ok given ∧ (¬ given.Has option ∨
      ∃ slot, option = .slot slot ∧ q.given = given ∧ q.pending = some (slot, none)) := by
  rcases option with slot | switch | _ | _ <;> rcases value with _ | v
  case slot.some =>
    obtain ⟨next, hbind, -⟩ := map_eq_ok.mp h
    obtain ⟨given, hsettle, hput⟩ := bind_eq_ok.mp hbind
    exact ⟨given, hsettle, .inl (Given.put_fresh hput)⟩
  case slot.none =>
    obtain ⟨given, hsettle, rfl⟩ := map_eq_ok.mp h
    exact ⟨given, hsettle, .inr ⟨slot, rfl, rfl, rfl⟩⟩
  case switch.none =>
    obtain ⟨next, hbind, -⟩ := map_eq_ok.mp h
    obtain ⟨given, hsettle, hswitch⟩ := bind_eq_ok.mp hbind
    exact ⟨given, hsettle, .inl (Given.switchOn_fresh hswitch)⟩
  case help.none | version.none =>
    obtain ⟨given, -, herror⟩ := bind_eq_ok.mp h
    cases herror
  case switch.some | help.some | version.some => cases h

theorem Progress.takeNamed_fresh {option : Named} {value : Option String}
    (h : p.takeNamed (some option) value = .ok q) (hq : q.AwaitsFresh) : ¬ p.Has option := by
  intro hhas
  obtain ⟨given, hsettle, hfresh | ⟨slot, rfl, rfl, hpending⟩⟩ := takeNamed_cases h
  · exact hfresh (settle_has hsettle hhas)
  · exact hq slot none hpending (settle_has hsettle hhas)

/-- Letters that are taken start with that of an option with a value, which ends them. -/
theorem Progress.takeShort_cons {letter : Char} {letters : List Char}
    (h : p.takeShort (letter :: letters) = .ok q) :
    ∃ slot, Named.ofShort? letter = some (.slot slot) ∧
      p.takeNamed (some (.slot slot)) (attachedValue letters) = .ok q := by
  rw [takeShort] at h
  split at h
  next slot hletter => exact ⟨slot, hletter, h⟩
  next hletter =>
    obtain ⟨next, hnext, -⟩ := bind_eq_ok.mp h
    exact absurd hnext (takeNamed_short_ne_ok hletter)

/-- The step: a word that is no terminator names an option, which is taken, or is a plain word. -/
theorem Progress.read_word {word : String} {words : List String} (hword : word ≠ "--")
    (h : p.read false (word :: words) = .ok given) :
    ∃ q, q.read false words = .ok given ∧
      ((∃ option value, (Word.ofString word).named? = some option ∧
          p.takeNamed (some option) value = .ok q) ∨
        ((Word.ofString word).named? = none ∧ p.takePlain word = .ok q)) := by
  rw [read] at h
  simp only [Bool.false_eq_true, if_false] at h
  split at h
  next ht => exact absurd (Word.ofString_eq_terminator.mp ht) hword
  next name value hw =>
    obtain ⟨q, htake, hrest⟩ := bind_eq_ok.mp h
    obtain ⟨option, hoption, -⟩ := takeNamed_has htake
    exact ⟨q, hrest, .inl ⟨option, value, by rw [hw]; exact hoption, hoption ▸ htake⟩⟩
  next letters hw =>
    obtain ⟨q, htake, hrest⟩ := bind_eq_ok.mp h
    cases letters with
    | nil => exact absurd hw (Word.ofString_ne_short_nil word)
    | cons letter letters =>
      obtain ⟨slot, hletter, htake⟩ := takeShort_cons htake
      exact ⟨q, hrest, .inl ⟨.slot slot, attachedValue letters, by rw [hw]; exact hletter, htake⟩⟩
  next hw =>
    obtain ⟨q, htake, hrest⟩ := bind_eq_ok.mp h
    exact ⟨q, hrest, .inr ⟨by rw [hw]; rfl, htake⟩⟩

theorem Progress.takePositional_awaitsFresh {word : String} (h : p.takePositional word = .ok q) :
    p.AwaitsFresh := by
  unfold takePositional at h
  split at h
  next => cases h
  next =>
    obtain ⟨given, hsettle, -⟩ := map_eq_ok.mp h
    exact awaitsFresh_of_settle hsettle

theorem Progress.takePlain_awaitsFresh {word : String} (h : p.takePlain word = .ok q)
    (hq : q.AwaitsFresh) : p.AwaitsFresh := by
  unfold takePlain at h
  split at h
  next slot hpending =>
    obtain rfl := Except.ok.inj h
    intro other value hother
    rw [hpending] at hother
    cases hother
    exact hq slot (some word) rfl
  next => exact takePositional_awaitsFresh h

/-- The run: whoever waits where a reading comes to an end has been new. -/
theorem Progress.read_awaitsFresh {terminated : Bool} {words : List String}
    (h : p.read terminated words = .ok given) : p.AwaitsFresh := by
  -- A slot that waits is judged at the next option or positional word or at the end; a plain word
  -- in between only gives it its value.
  induction words generalizing p terminated with
  | nil => exact awaitsFresh_of_settle h
  | cons word words ih =>
    cases terminated with
    | true =>
      rw [read, if_pos rfl] at h
      obtain ⟨q, htake, -⟩ := bind_eq_ok.mp h
      exact takePositional_awaitsFresh htake
    | false =>
      by_cases hword : word = "--"
      · rw [read, Word.ofString_eq_terminator.mpr hword] at h
        exact ih h
      · obtain ⟨q, hrest, ⟨option, value, -, htake⟩ | ⟨-, htake⟩⟩ := read_word hword h
        · obtain ⟨given, hsettle, -⟩ := takeNamed_cases htake
          exact awaitsFresh_of_settle hsettle
        · exact takePlain_awaitsFresh htake (ih hrest)

/-- Whatever a word in front of a terminator names is new. -/
theorem Progress.read_fresh {words : List String} (h : p.read false words = .ok given)
    {word : String} (hword : word ∈ words.takeWhile (· ≠ "--")) {option : Named}
    (hoption : (Word.ofString word).named? = some option) : ¬ p.Has option := by
  induction words generalizing p with
  | nil => simp at hword
  | cons first words ih =>
    by_cases hfirst : first = "--"
    · simp [hfirst] at hword
    · rw [List.takeWhile_cons_of_pos (by simpa using hfirst)] at hword
      rcases List.mem_cons.mp hword with rfl | hword
      · obtain ⟨q, hrest, ⟨other, value, hother, htake⟩ | ⟨hnone, -⟩⟩ := read_word hfirst h
        · obtain rfl : other = option := Option.some.inj (hother.symm.trans hoption)
          exact takeNamed_fresh htake (read_awaitsFresh hrest)
        · simp [hnone] at hoption
      · obtain ⟨q, hkept, hrest, -⟩ := read_cons hfirst h
        exact fun hhas => ih hrest hword (hkept option hhas)

/-- No two words in front of a terminator name the same option. -/
theorem Progress.read_ne {words : List String} (h : p.read false words = .ok given)
    {first second : String} (hwords : [first, second].Sublist (words.takeWhile (· ≠ "--")))
    {option : Named} (hoption : (Word.ofString first).named? = some option) :
    (Word.ofString second).named? ≠ some option := by
  induction words generalizing p with
  | nil => simp at hwords
  | cons word words ih =>
    by_cases hword : word = "--"
    · simp [hword] at hwords
    · rw [List.takeWhile_cons_of_pos (by simpa using hword)] at hwords
      obtain ⟨q, -, hrest, hnamed⟩ := read_cons hword h
      cases hwords with
      | cons _ hwords => exact ih hrest hwords
      | cons_cons _ hsecond =>
        -- behind the first word the reading has the option, so no later word can name it
        intro hother
        exact read_fresh hrest (List.singleton_sublist.mp hsecond) hother (hnamed option hoption)

end Steps

/-- The option stands in the word: by its long name, alone or with a value behind an equals sign,
or by its letter, in front of which letters of help and version may stand, and behind it
anything. -/
inductive Named.StandsIn (option : Named) : String → Prop where
  | long {name : String} (h : option.longName? = some name) : StandsIn option ("--" ++ name)
  | valued {name : String} (value : String) (h : option.longName? = some name) :
      StandsIn option ("--" ++ name ++ "=" ++ value)
  | letter {letter : Char} (front rest : List Char) (h : option.letter? = some letter)
      (hfront : ∀ c ∈ front, c = 'h' ∨ c = 'V') :
      StandsIn option (String.ofList ('-' :: (front ++ letter :: rest)))

theorem Word.named?_short {word : String} {letter : Char} (hletter : letter ≠ '-')
    {rest : List Char} (hword : word.toList = '-' :: letter :: rest) :
    (Word.ofString word).named? = Named.ofShort? letter := by
  rw [Word.ofString_short hletter hword, Word.named?]

theorem Named.StandsIn.named? {option : Named} {word : String} (h : option.StandsIn word) :
    ∃ first, (Word.ofString word).named? = some first ∧
      (first = option ∨ first = .help ∨ first = .version) := by
  cases h with
  | long hname =>
    rw [Named.ofString_long hname]
    exact ⟨option, Named.ofLong?_longName hname, .inl rfl⟩
  | valued value hname =>
    rw [Named.ofString_valued hname]
    exact ⟨option, Named.ofLong?_longName hname, .inl rfl⟩
  | letter front rest hletter hfront =>
    cases front with
    | nil =>
      refine ⟨option, ?_, .inl rfl⟩
      rw [List.nil_append, Word.named?_short (Named.letter_ne_dash hletter) String.toList_ofList]
      exact Named.ofShort?_letter hletter
    | cons c front =>
      rcases hfront c List.mem_cons_self with rfl | rfl
      · exact ⟨.help, Word.named?_short (by decide) String.toList_ofList, .inr (.inl rfl)⟩
      · exact ⟨.version, Word.named?_short (by decide) String.toList_ofList, .inr (.inr rfl)⟩

/-- In a command line that is read to its end, every word names the option that stands in it. -/
theorem Progress.read_standsIn {p : Progress} {words : List String} {given : Given}
    (h : p.read false words = .ok given) {word : String}
    (hword : word ∈ words.takeWhile (· ≠ "--")) {option : Named} (hoption : option.StandsIn word) :
    (Word.ofString word).named? = some option := by
  obtain ⟨first, hfirst, rfl | rfl | rfl⟩ := hoption.named?
  · exact hfirst
  · exact absurd (read_named h hword hfirst) id
  · exact absurd (read_named h hword hfirst) id

/-- The options that ask for a mode. -/
def Named.modes : List Named := [.slot .tokenFile, .slot .nodeFile, .switch .listCommands]

/-- The mode that an option asks for. -/
def Given.mode? (given : Given) : Named → Option Mode
  | .slot .tokenFile => (given.values.lookup .tokenFile).map Mode.tokens
  | .slot .nodeFile => (given.values.lookup .nodeFile).map Mode.nodes
  | .switch .listCommands => if .listCommands ∈ given.switches then some .commandTable else none
  | _ => none

/-- The mode that runs when options are tried in this order and the first one given decides. -/
def Given.dispatch (given : Given) (order : List Named) : Mode :=
  (order.findSome? given.mode?).getD .document

theorem Given.modes_eq (given : Given) : given.modes = Named.modes.filterMap given.mode? := by
  by_cases hlist : .listCommands ∈ given.switches <;>
    cases htokens : given.values.lookup .tokenFile <;>
    cases hnodes : given.values.lookup .nodeFile <;>
    simp [modes, Named.modes, mode?, hlist, htokens, hnodes]

theorem Given.mode?_isSome {given : Given} {option : Named} (hmode : option ∈ Named.modes)
    (h : given.Has option) : (given.mode? option).isSome = true := by
  simp only [Named.modes, List.mem_cons, List.not_mem_nil, or_false] at hmode
  rcases hmode with rfl | rfl | rfl
  · simpa [mode?] using lookup_isSome h
  · simpa [mode?] using lookup_isSome h
  · have hmem : .listCommands ∈ given.switches := h
    simp [mode?, hmem]

/-- Settings come with the one mode that is given, or else for a document. -/
theorem Given.settings_cases {given : Given} {settings : Settings}
    (h : given.settings = .ok settings) :
    given.modes = [] ∧ settings.mode = .document ∨ given.modes = [settings.mode] := by
  unfold Given.settings at h
  dsimp only at h
  split at h
  next hmodes =>
    obtain rfl := Except.ok.inj h
    exact .inl ⟨hmodes, rfl⟩
  next mode hmodes =>
    obtain rfl := Except.ok.inj h
    exact .inr hmodes
  next => cases h

theorem Given.settings_mode_unique {given : Given} {settings : Settings}
    (h : given.settings = .ok settings) {option other : Named} (hoption : option ∈ Named.modes)
    (hother : other ∈ Named.modes) (hhas : given.Has option) (hhasOther : given.Has other) :
    option = other := by
  have hlength : given.modes.length ≤ 1 := by
    rcases settings_cases h with ⟨hmodes, -⟩ | hmodes <;> simp [hmodes]
  by_contra hne
  -- two different options with a mode would make two modes
  have hsome : [option, other] ⊆ Named.modes.filter fun named => (given.mode? named).isSome := by
    simp [hoption, hother, mode?_isSome hoption hhas, mode?_isSome hother hhasOther]
  have htwo := (List.Nodup.subperm (by simpa using hne) hsome).length_le
  rw [given.modes_eq, List.length_filterMap_eq_countP, List.countP_eq_length_filter] at hlength
  simp only [List.length_cons, List.length_nil] at htwo
  omega

/-- Whatever the order in which modes are tried, the one that is set runs. -/
theorem Given.dispatch_eq {given : Given} {settings : Settings}
    (h : given.settings = .ok settings) {order : List Named} (horder : order.Perm Named.modes) :
    given.dispatch order = settings.mode := by
  have hmodes : (order.filterMap given.mode?).Perm given.modes := by
    rw [given.modes_eq]
    exact horder.filterMap given.mode?
  rw [dispatch, ← List.head?_filterMap]
  rcases settings_cases h with ⟨hnone, hdocument⟩ | hone
  · rw [hnone, List.perm_nil] at hmodes
    rw [hmodes, hdocument]
    rfl
  · rw [hone, List.perm_singleton] at hmodes
    rw [hmodes]
    rfl

/-- Options of which one line can have only one: an option excludes itself, and modes exclude each
other. -/
def Named.Excludes (option other : Named) : Prop :=
  option = other ∨ option ∈ Named.modes ∧ other ∈ Named.modes

theorem Given.not_excludes {words : List String} {given : Given} {settings : Settings}
    (hread : Progress.start.read false words = .ok given)
    (hsettings : given.settings = .ok settings)
    {first second : String} (hwords : [first, second].Sublist (words.takeWhile (· ≠ "--")))
    {option other : Named} (hoption : option.StandsIn first) (hother : other.StandsIn second) :
    ¬ option.Excludes other := by
  have hfirst : first ∈ words.takeWhile (· ≠ "--") := hwords.subset (by simp)
  have hsecond : second ∈ words.takeWhile (· ≠ "--") := hwords.subset (by simp)
  have hnamed := Progress.read_standsIn hread hfirst hoption
  have hnamedOther := Progress.read_standsIn hread hsecond hother
  have hne : option ≠ other := by
    rintro rfl
    exact Progress.read_ne hread hwords hnamed hnamedOther
  rintro (heq | ⟨hmode, hmodeOther⟩)
  · exact hne heq
  · exact hne (settings_mode_unique hsettings hmode hmodeOther
      (Progress.read_named hread hfirst hnamed) (Progress.read_named hread hsecond hnamedOther))

/-- Settings do not depend on the order and the spelling of what is chosen: every arrangement of
its groups is accepted and gives the settings chosen. A command line in which two options stand
that exclude each other is never accepted, nor is one that asks for help or the version, and only
these two can share a word with another option. So the order in which modes are tried never decides
which of them runs. -/
theorem readArguments_orderFree :
    (∀ (choice : Choice) (groups : List Group) (lines : List (List String)),
      groups.Perm choice.groups → List.Forall₂ Group.Spelling groups lines →
        readArguments lines.flatten = .ok choice.settings) ∧
    (∀ (words : List String) (first second : String) (option other : Named),
      [first, second].Sublist (words.takeWhile (· ≠ "--")) → option.StandsIn first →
        other.StandsIn second → option.Excludes other →
          ∀ settings, readArguments words ≠ .ok settings) ∧
    (∀ (words : List String) (word : String), word ∈ words.takeWhile (· ≠ "--") →
      Named.help.StandsIn word ∨ Named.version.StandsIn word →
        ∀ settings, readArguments words ≠ .ok settings) ∧
    ∀ (words : List String) (settings : Settings), readArguments words = .ok settings →
      ∃ given, Progress.start.read false words = .ok given ∧
        ∀ order : List Named, order.Perm Named.modes → given.dispatch order = settings.mode := by
  refine ⟨?_, ?_, ?_, ?_⟩
  · intro choice groups lines hgroups hlines
    exact readArguments_of_groups hgroups hlines
  · intro words first second option other hwords hoption hother hexcludes settings h
    obtain ⟨given, hread, hsettings⟩ := bind_eq_ok.mp h
    exact Given.not_excludes hread hsettings hwords hoption hother hexcludes
  · intro words word hword hoption settings h
    obtain ⟨given, hread, -⟩ := bind_eq_ok.mp h
    rcases hoption with hoption | hoption
    all_goals exact Progress.read_named hread hword (Progress.read_standsIn hread hword hoption)
  · intro words settings h
    obtain ⟨given, hread, hsettings⟩ := bind_eq_ok.mp h
    exact ⟨given, hread, fun order horder => Given.dispatch_eq hsettings horder⟩

/-- A line with everything but the output, where values look like names; two modes with a positional
word between them; and an option that stands twice, without a value the second time. -/
theorem readArguments_orderFree_mixed :
    readArguments ["--no-required-heuristic", "-to=-t", "--parse", "json", "lex", "--format=json",
        "--include-private"] =
      .ok ⟨"lex", "docs.md", "o=-t", .json, true, .never, .nodes "json"⟩ ∧
    (∀ settings, readArguments ["--list-commands", "x", "--lex=y", "--", "-o"] ≠ .ok settings) ∧
    ∀ settings, readArguments ["-o", "a", "x", "--output"] ≠ .ok settings := by
  refine ⟨?_, ?_, ?_⟩
  · let choice : Choice :=
      { input := some ⟨"lex", by decide⟩
        output := none
        title := some "o=-t"
        format := some .json
        includePrivate := true
        noRequiredHeuristic := true
        alternative := some (.nodes ⟨"json", by decide⟩) }
    refine readArguments_orderFree.1 choice
      [.switch .noRequiredHeuristic, .value .title "o=-t", .value .nodeFile "json",
        .value .input "lex", .value .format "json", .switch .includePrivate]
      [["--no-required-heuristic"], ["-to=-t"], ["--parse", "json"], ["lex"], ["--format=json"],
        ["--include-private"]] (by decide) ?_
    refine .cons (@Group.Spelling.switch _ "no-required-heuristic" rfl) ?_
    refine .cons (@Group.Spelling.shortAttached _ 't' "o=-t" rfl ⟨by decide, by decide⟩) ?_
    refine .cons (@Group.Spelling.long _ "parse" "json" rfl (by simp [Detachable])) ?_
    refine .cons (.alone (by simp [Detachable])) ?_
    refine .cons (@Group.Spelling.longAttached _ "format" rfl "json") ?_
    exact .cons (@Group.Spelling.switch _ "include-private" rfl) .nil
  · exact readArguments_orderFree.2.1 _ "--list-commands" "--lex=y" (.switch .listCommands)
      (.slot .tokenFile) (by decide) (@Named.StandsIn.long _ "list-commands" rfl)
      (@Named.StandsIn.valued _ "lex" "y" rfl) (.inr (by decide))
  · exact readArguments_orderFree.2.1 _ "-o" "--output" (.slot .output) (.slot .output) (by decide)
      (@Named.StandsIn.letter _ 'o' [] [] rfl (by simp)) (@Named.StandsIn.long _ "output" rfl)
      (.inl rfl)

end CMakeManual.Run
