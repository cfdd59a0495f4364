import CMakeManual.Run.Arguments

/-! Options on a command line. Once an option or switch is named in front of a terminator, every
reading that comes to an end has it, so it shows in the settings; help and version let no reading
come to an end. -/
namespace CMakeManual.Run

theorem bind_eq_ok {ε α β : Type} {x : Except ε α} {f : α → Except ε β} {b : β} :
    x.bind f = .ok b ↔ ∃ a, x = .ok a ∧ f a = .ok b := by
  cases x <;> simp [Except.bind]

theorem map_eq_ok {ε α β : Type} {x : Except ε α} {f : α → β} {b : β} :
    x.map f = .ok b ↔ ∃ a, x = .ok a ∧ f a = b := by
  cases x <;> simp [Except.map]

/-- The option that a word names; words after it in the same word are not looked at. -/
def Word.named? : Word → Option Named
  | .long name _ => Named.ofLong? name
  | .short (c :: _) => Named.ofShort? c
  | .short [] | .terminator | .plain => none

/-- The option has been accepted. -/
def Given.Has (given : Given) : Named → Prop
  | .slot slot => ∃ value, (slot, value) ∈ given.values
  | .switch switch => switch ∈ given.switches
  | .help | .version => False

/-- The option has been accepted, or waits to be. -/
def Progress.Has (p : Progress) (named : Named) : Prop :=
  p.given.Has named ∨ ∃ slot value, p.pending = some (slot, value) ∧ named = .slot slot

/-- Everything that has been named before is still there. -/
def Progress.Keeps (p q : Progress) : Prop := ∀ named, p.Has named → q.Has named

theorem Given.put_has {given next : Given} {slot : Slot} {value : Option String}
    (h : given.put slot value = .ok next) :
    next.Has (.slot slot) ∧ ∀ named, given.Has named → next.Has named := by
  unfold put at h
  split at h
  next => simp at h
  next v =>
    split at h
    next => simp at h
    next =>
      split at h
      next =>
        obtain rfl := Except.ok.inj h
        refine ⟨⟨v, by simp⟩, ?_⟩
        rintro (other | switch | _ | _) hnamed
        · obtain ⟨w, hw⟩ := hnamed
          exact ⟨w, List.mem_cons_of_mem _ hw⟩
        · exact hnamed
        · exact hnamed
        · exact hnamed
      next => simp at h

theorem Given.switchOn_has {given next : Given} {switch : Switch}
    (h : given.switchOn switch = .ok next) :
    next.Has (.switch switch) ∧ ∀ named, given.Has named → next.Has named := by
  unfold switchOn at h
  split at h
  next => simp at h
  next =>
    obtain rfl := Except.ok.inj h
    refine ⟨by simp [Has], ?_⟩
    rintro (slot | other | _ | _) hnamed
    · exact hnamed
    · exact List.mem_cons_of_mem _ hnamed
    · exact hnamed
    · exact hnamed

section Steps
variable {p q : Progress}

theorem Progress.settle_has {given : Given} (h : p.settle = .ok given) {named : Named}
    (hnamed : p.Has named) : given.Has named := by
  unfold settle at h
  split at h
  next hp =>
    obtain rfl := Except.ok.inj h
    rcases hnamed with hgiven | ⟨slot, value, hpending, -⟩
    · exact hgiven
    · simp [hp] at hpending
  next slot value hp =>
    obtain ⟨hslot, hkept⟩ := Given.put_has h
    rcases hnamed with hgiven | ⟨other, v, hpending, rfl⟩
    · exact hkept named hgiven
    · obtain rfl : slot = other := by
        rw [hp] at hpending
        exact (Prod.mk.inj (Option.some.inj hpending)).1
      exact hslot

theorem Progress.attach_has {slot : Slot} {value : String} (h : p.attach slot value = .ok q) :
    q.Has (.slot slot) ∧ p.Keeps q := by
  obtain ⟨next, hbind, rfl⟩ := map_eq_ok.mp h
  obtain ⟨given, hsettle, hput⟩ := bind_eq_ok.mp hbind
  obtain ⟨hslot, hkept⟩ := Given.put_has hput
  exact ⟨.inl hslot, fun named hnamed => .inl (hkept named (settle_has hsettle hnamed))⟩

theorem Progress.await_has {slot : Slot} (h : p.await slot = .ok q) :
    q.Has (.slot slot) ∧ p.Keeps q := by
  obtain ⟨given, hsettle, rfl⟩ := map_eq_ok.mp h
  exact ⟨.inr ⟨slot, none, rfl, rfl⟩, fun named hnamed => .inl (settle_has hsettle hnamed)⟩

theorem Progress.takePositional_keeps {word : String} (h : p.takePositional word = .ok q) :
    p.Keeps q := by
  unfold takePositional at h
  split at h
  next => simp at h
  next =>
    obtain ⟨given, hsettle, rfl⟩ := map_eq_ok.mp h
    exact fun named hnamed => .inl (settle_has hsettle hnamed)

theorem Progress.takePlain_keeps {word : String} (h : p.takePlain word = .ok q) : p.Keeps q := by
  unfold takePlain at h
  split at h
  next slot hp =>
    obtain rfl := Except.ok.inj h
    rintro named (hgiven | ⟨other, value, hpending, rfl⟩)
    · exact .inl hgiven
    · obtain rfl : slot = other := by
        rw [hp] at hpending
        exact (Prod.mk.inj (Option.some.inj hpending)).1
      exact .inr ⟨slot, some word, rfl, rfl⟩
  next => exact takePositional_keeps h

/-- The step: an option that is taken is one there is, and is named from then on. -/
theorem Progress.takeNamed_has {named : Option Named} {value : Option String}
    (h : p.takeNamed named value = .ok q) :
    ∃ option, named = some option ∧ q.Has option ∧ p.Keeps q := by
  unfold takeNamed at h
  split at h
  next => simp at h
  next slot v => exact ⟨.slot slot, rfl, attach_has h⟩
  next slot => exact ⟨.slot slot, rfl, await_has h⟩
  next => simp at h
  next switch =>
    obtain ⟨next, hbind, rfl⟩ := map_eq_ok.mp h
    obtain ⟨given, hsettle, hswitch⟩ := bind_eq_ok.mp hbind
    obtain ⟨hon, hkept⟩ := Given.switchOn_has hswitch
    exact ⟨.switch switch, rfl, .inl hon,
      fun option hoption => .inl (hkept option (settle_has hsettle hoption))⟩
  next =>
    obtain ⟨given, -, herror⟩ := bind_eq_ok.mp h
    simp at herror
  next =>
    obtain ⟨given, -, herror⟩ := bind_eq_ok.mp h
    simp at herror

/-- No short option without a value lets the reading go on. -/
theorem Progress.takeNamed_short_ne_ok {letter : Char}
    (hletter : ∀ slot, Named.ofShort? letter ≠ some (.slot slot)) :
    p.takeNamed (Named.ofShort? letter) none ≠ .ok q := by
  intro h
  obtain ⟨option, hoption, hhas, -⟩ := takeNamed_has h
  rcases option with slot | switch | _ | _
  · exact hletter slot hoption
  · unfold Named.ofShort? at hoption
    split at hoption <;> cases hoption
  · simp [Has, Given.Has] at hhas
  · simp [Has, Given.Has] at hhas

theorem Progress.takeShort_keeps {letters : List Char} (h : p.takeShort letters = .ok q) :
    p.Keeps q ∧ ∀ option, (Word.short letters).named? = some option → q.Has option := by
  induction letters generalizing p with
  | nil =>
    obtain rfl := Except.ok.inj h
    exact ⟨fun named hnamed => hnamed, by simp [Word.named?]⟩
  | cons c letters ih =>
    rw [takeShort] at h
    split at h
    next slot hc =>
      obtain ⟨option, hoption, hhas, hkept⟩ := takeNamed_has h
      obtain rfl := Option.some.inj hoption
      refine ⟨hkept, ?_⟩
      rintro option hnamed
      rw [Word.named?, hc, Option.some.injEq] at hnamed
      exact hnamed ▸ hhas
    next hc =>
      obtain ⟨next, hnext, hrest⟩ := bind_eq_ok.mp h
      obtain ⟨option, hoption, hhas, hkept⟩ := takeNamed_has hnext
      have hlater := (ih hrest).1
      refine ⟨fun named hnamed => hlater named (hkept named hnamed), ?_⟩
      rintro other hnamed
      rw [Word.named?, hoption, Option.some.injEq] at hnamed
      exact hnamed ▸ hlater option hhas

end Steps

theorem Word.ofString_eq_terminator {word : String} :
    Word.ofString word = .terminator ↔ word = "--" := by
  constructor
  · intro h
    unfold Word.ofString at h
    split at h
    next hw => exact String.toList_inj.mp hw
    all_goals simp at h
  · rintro rfl
    rfl

/-- The step: a word that is no terminator names its option and leaves the others named. -/
theorem Progress.read_cons {p : Progress} {word : String} {words : List String} {given : Given}
    (hword : word ≠ "--") (h : p.read false (word :: words) = .ok given) :
    ∃ q : Progress, p.Keeps q ∧ q.read false words = .ok given ∧
      ∀ option, (Word.ofString word).named? = some option → q.Has option := by
  rw [read] at h
  simp only [Bool.false_eq_true, if_false] at h
  split at h
  next ht => exact absurd (Word.ofString_eq_terminator.mp ht) hword
  next name value hw =>
    obtain ⟨q, htake, hrest⟩ := bind_eq_ok.mp h
    obtain ⟨option, hoption, hhas, hkept⟩ := takeNamed_has htake
    refine ⟨q, hkept, hrest, ?_⟩
    intro other hother
    rw [hw, Word.named?, hoption, Option.some.injEq] at hother
    exact hother ▸ hhas
  next letters hw =>
    obtain ⟨q, htake, hrest⟩ := bind_eq_ok.mp h
    obtain ⟨hkept, hnamed⟩ := takeShort_keeps htake
    exact ⟨q, hkept, hrest, by rwa [hw]⟩
  next hw =>
    obtain ⟨q, htake, hrest⟩ := bind_eq_ok.mp h
    exact ⟨q, takePlain_keeps htake, hrest, by simp [hw, Word.named?]⟩

/-- The run: what has been named is given in the end. -/
theorem Progress.read_has {p : Progress} {terminated : Bool} {words : List String} {given : Given}
    (h : p.read terminated words = .ok given) {named : Named} (hnamed : p.Has named) :
    given.Has named := by
  induction words generalizing p terminated with
  | nil => exact settle_has h hnamed
  | cons word words ih =>
    cases terminated with
    | true =>
      rw [read, if_pos rfl] at h
      obtain ⟨q, htake, hrest⟩ := bind_eq_ok.mp h
      exact ih hrest (takePositional_keeps htake named hnamed)
    | false =>
      by_cases hword : word = "--"
      · rw [read, Word.ofString_eq_terminator.mpr hword] at h
        exact ih h hnamed
      · obtain ⟨q, hkept, hrest, -⟩ := read_cons hword h
        exact ih hrest (hkept named hnamed)

/-- Every option that a word in front of a terminator names is given in the end. -/
theorem Progress.read_named {p : Progress} {words : List String} {given : Given}
    (h : p.read false words = .ok given) {word : String}
    (hword : word ∈ words.takeWhile (· ≠ "--")) {option : Named}
    (hoption : (Word.ofString word).named? = some option) : given.Has option := by
  induction words generalizing p with
  | nil => simp at hword
  | cons first words ih =>
    by_cases hfirst : first = "--"
    · simp [hfirst] at hword
    · obtain ⟨q, -, hrest, hnamed⟩ := read_cons hfirst h
      rw [List.takeWhile_cons_of_pos (by simpa using hfirst)] at hword
      rcases List.mem_cons.mp hword with rfl | hword
      · exact read_has hrest (hnamed option hoption)
      · exact ih hrest hword

/-- The option asks for something else than a document. -/
def Named.replacesDocument : Named → Bool
  | .slot .tokenFile | .slot .nodeFile | .switch .listCommands | .help | .version => true
  | .slot _ | .switch _ => false

theorem Given.lookup_isSome {given : Given} {slot : Slot} (h : given.Has (.slot slot)) :
    (given.values.lookup slot).isSome = true := by
  obtain ⟨value, hvalue⟩ := h
  rw [Option.isSome_iff_ne_none]
  intro hnone
  have hne := List.lookup_eq_none_iff.mp hnone _ hvalue
  simp at hne

theorem Given.modes_ne_nil {given : Given} {option : Named} (h : given.Has option)
    (hoption : option.replacesDocument = true) : given.modes ≠ [] := by
  rcases option with slot | switch | _ | _
  · have hsome := lookup_isSome h
    cases slot with
    | tokenFile =>
      obtain ⟨file, hfile⟩ := Option.isSome_iff_exists.mp hsome
      simp [modes, hfile]
    | nodeFile =>
      obtain ⟨file, hfile⟩ := Option.isSome_iff_exists.mp hsome
      simp [modes, hfile]
    | input | output | title | format => simp [Named.replacesDocument] at hoption
  · cases switch with
    | listCommands =>
      have hon : Switch.listCommands ∈ given.switches := h
      simp [modes, hon]
    | includePrivate | noRequiredHeuristic => simp [Named.replacesDocument] at hoption
  · exact absurd h id
  · exact absurd h id

theorem Given.ne_document_of_mem_modes {given : Given} {mode : Mode} (h : mode ∈ given.modes) :
    mode ≠ .document := by
  rintro rfl
  simp [modes] at h

/-- Settings with an option that asks for something else do not ask for a document. -/
theorem Given.settings_mode {given : Given} {settings : Settings}
    (h : given.settings = .ok settings) {option : Named} (hhas : given.Has option)
    (hoption : option.replacesDocument = true) : settings.mode ≠ .document := by
  unfold Given.settings at h
  dsimp only at h
  split at h
  next hm => exact absurd hm (modes_ne_nil hhas hoption)
  next mode hm =>
    have hmem : mode ∈ given.modes := by simp [hm]
    obtain rfl := Except.ok.inj h
    exact ne_document_of_mem_modes hmem
  next => simp at h

/-- A command line with such an option in front of a terminator does not ask for a document. -/
theorem readArguments_mode {words : List String} {settings : Settings}
    (h : readArguments words = .ok settings) {word : String}
    (hword : word ∈ words.takeWhile (· ≠ "--")) {option : Named}
    (hoption : (Word.ofString word).named? = some option)
    (hreplaces : option.replacesDocument = true) : settings.mode ≠ .document := by
  obtain ⟨given, hread, hsettings⟩ := bind_eq_ok.mp h
  exact Given.settings_mode hsettings (Progress.read_named hread hword hoption) hreplaces

end CMakeManual.Run
