import CMakeManual.Proofs.Run.Options

/-! What a command line has not asked for. Whatever a reading accepts besides the input, and the help
or version that ends it, stands in a word in front of a terminator. The spelling of a word follows
from what was read in it, so words that ask for nothing else leave a run with its document. -/
namespace CMakeManual.Run

/-- The option that a reading ended with. -/
def Halt.option? : Halt → Option Named
  | .help => some .help
  | .version => some .version
  | .rejected _ => none

/-- Nothing but what was asked for is there in the end: neither accepted nor what ended the
reading. -/
def OnlyAsked {α : Type} (asked : Named → Prop) (has : α → Named → Prop) : Except Halt α → Prop
  | .ok a => ∀ option, has a option → asked option
  | .error halt => ∀ option, halt.option? = some option → asked option

/-- Only slots take a value. -/
def Named.Takes : Named → Option String → Prop
  | .slot _, _ => True
  | .switch _, value | .help, value | .version, value => value = none

/-- The word asks for the option: it names it, with a value only if the option takes one. -/
def Word.AsksFor : Word → Named → Prop
  | .long name value, option => Named.ofLong? name = some option ∧ option.Takes value
  | .short (c :: _), option => Named.ofShort? c = some option
  | .short [], _ | .terminator, _ | .plain, _ => False

section Asked
variable {asked : Named → Prop}

theorem OnlyAsked.bind {α β : Type} {has : α → Named → Prop} {has' : β → Named → Prop}
    {x : Except Halt α} {f : α → Except Halt β} (hx : OnlyAsked asked has x)
    (hf : ∀ a, x = .ok a → (∀ option, has a option → asked option) → OnlyAsked asked has' (f a)) :
    OnlyAsked asked has' (x.bind f) := by
  cases x with
  | error halt => exact hx
  | ok a => exact hf a rfl hx

theorem OnlyAsked.map {α β : Type} {has : α → Named → Prop} {has' : β → Named → Prop}
    {x : Except Halt α} {f : α → β} (hx : OnlyAsked asked has x)
    (hf : ∀ a, (∀ option, has a option → asked option) →
      ∀ option, has' (f a) option → asked option) :
    OnlyAsked asked has' (x.map f) := by
  cases x with
  | error halt => exact hx
  | ok a => exact hf a hx

theorem onlyAsked_rejected {α : Type} (has : α → Named → Prop) (reason : Rejection) :
    OnlyAsked asked has (.error (.rejected reason)) := by
  rintro option ⟨⟩

theorem Given.put_onlyAsked {given : Given} (hgiven : ∀ option, given.Has option → asked option)
    {slot : Slot} (hslot : asked (.slot slot)) (value : Option String) :
    OnlyAsked asked Given.Has (given.put slot value) := by
  unfold put
  split
  next => exact onlyAsked_rejected _ _
  next v =>
    split
    next => exact onlyAsked_rejected _ _
    next =>
      split
      next =>
        rintro (other | switch | _ | _) hhas
        · obtain ⟨w, hw⟩ := hhas
          rcases List.mem_cons.mp hw with heq | hw
          · obtain rfl := (Prod.mk.inj heq).1
            exact hslot
          · exact hgiven (.slot other) ⟨w, hw⟩
        · exact hgiven (.switch switch) hhas
        · exact absurd hhas id
        · exact absurd hhas id
      next => exact onlyAsked_rejected _ _

theorem Given.switchOn_onlyAsked {given : Given}
    (hgiven : ∀ option, given.Has option → asked option) {switch : Switch}
    (hswitch : asked (.switch switch)) :
    OnlyAsked asked Given.Has (given.switchOn switch) := by
  unfold switchOn
  split
  next => exact onlyAsked_rejected _ _
  next =>
    rintro (slot | other | _ | _) hhas
    · exact hgiven (.slot slot) hhas
    · rcases List.mem_cons.mp hhas with rfl | hhas
      · exact hswitch
      · exact hgiven (.switch other) hhas
    · exact absurd hhas id
    · exact absurd hhas id

theorem Progress.has_of_settled {given : Given} {positional : Bool} {option : Named} :
    Progress.Has ⟨given, none, positional⟩ option ↔ given.Has option := by
  simp [Has]

theorem Progress.has_of_pending {given : Given} {slot : Slot} {value : Option String}
    {positional : Bool} {option : Named} :
    Progress.Has ⟨given, some (slot, value), positional⟩ option ↔
      given.Has option ∨ option = .slot slot := by
  refine or_congr_right ⟨?_, fun h => ⟨slot, value, rfl, h⟩⟩
  rintro ⟨other, v, hpending, rfl⟩
  cases hpending
  rfl

section Steps
variable {p : Progress} (hp : ∀ option, p.Has option → asked option)
include hp

theorem Progress.settle_onlyAsked : OnlyAsked asked Given.Has p.settle := by
  have hgiven : ∀ option, p.given.Has option → asked option :=
    fun option hhas => hp option (.inl hhas)
  unfold settle
  split
  next => exact hgiven
  next slot value hpending =>
    exact Given.put_onlyAsked hgiven (hp (.slot slot) (.inr ⟨slot, value, hpending, rfl⟩)) value

theorem Progress.attach_onlyAsked {slot : Slot} (hslot : asked (.slot slot)) (value : String) :
    OnlyAsked asked Progress.Has (p.attach slot value) := by
  refine ((settle_onlyAsked hp).bind fun given _ hgiven =>
    Given.put_onlyAsked hgiven hslot (some value)).map ?_
  intro given hgiven option hhas
  exact hgiven option (has_of_settled.mp hhas)

theorem Progress.await_onlyAsked {slot : Slot} (hslot : asked (.slot slot)) :
    OnlyAsked asked Progress.Has (p.await slot) := by
  refine (settle_onlyAsked hp).map ?_
  intro given hgiven option hhas
  rcases has_of_pending.mp hhas with hhas | rfl
  · exact hgiven option hhas
  · exact hslot

theorem Progress.takePositional_onlyAsked (hinput : asked (.slot .input)) (word : String) :
    OnlyAsked asked Progress.Has (p.takePositional word) := by
  unfold takePositional
  split
  next => exact onlyAsked_rejected _ _
  next =>
    refine (settle_onlyAsked hp).map ?_
    intro given hgiven option hhas
    rcases has_of_pending.mp hhas with hhas | rfl
    · exact hgiven option hhas
    · exact hinput

theorem Progress.takePlain_onlyAsked (hinput : asked (.slot .input)) (word : String) :
    OnlyAsked asked Progress.Has (p.takePlain word) := by
  unfold takePlain
  split
  next slot hpending =>
    intro option hhas
    rcases has_of_pending.mp hhas with hhas | rfl
    · exact hp option (.inl hhas)
    · exact hp (.slot slot) (.inr ⟨slot, none, hpending, rfl⟩)
  next => exact takePositional_onlyAsked hp hinput word

/-- The step: an option that is taken, or ends the reading, is the one named. -/
theorem Progress.takeNamed_onlyAsked {named : Option Named} {value : Option String}
    (hnamed : ∀ option, named = some option → option.Takes value → asked option) :
    OnlyAsked asked Progress.Has (p.takeNamed named value) := by
  have hsettle := settle_onlyAsked hp
  unfold takeNamed
  split
  next => exact onlyAsked_rejected _ _
  next slot v => exact attach_onlyAsked hp (hnamed (.slot slot) rfl trivial) v
  next slot => exact await_onlyAsked hp (hnamed (.slot slot) rfl trivial)
  next => exact onlyAsked_rejected _ _
  next switch =>
    have hswitch := hnamed (.switch switch) rfl rfl
    refine (hsettle.bind fun given _ hgiven => Given.switchOn_onlyAsked hgiven hswitch).map ?_
    intro given hgiven option hhas
    exact hgiven option (has_of_settled.mp hhas)
  next =>
    refine hsettle.bind fun given _ _ => ?_
    rintro option ⟨⟩
    exact hnamed .help rfl rfl
  next =>
    refine hsettle.bind fun given _ _ => ?_
    rintro option ⟨⟩
    exact hnamed .version rfl rfl

theorem Progress.takeShort_onlyAsked {letters : List Char}
    (hletters : ∀ option, (Word.short letters).AsksFor option → asked option) :
    OnlyAsked asked Progress.Has (p.takeShort letters) := by
  cases letters with
  | nil => exact hp
  | cons c letters =>
    rw [takeShort]
    split
    next slot hc =>
      refine takeNamed_onlyAsked hp ?_
      rintro option ⟨⟩ -
      exact hletters (.slot slot) hc
    next hc =>
      refine (takeNamed_onlyAsked hp fun option hoption _ => hletters option hoption).bind ?_
      intro q hq
      exact absurd hq (takeNamed_short_ne_ok hc)

end Steps

/-- The run behind a terminator takes words for the input only. -/
theorem Progress.read_terminated_onlyAsked {p : Progress}
    (hp : ∀ option, p.Has option → asked option) (hinput : asked (.slot .input))
    (words : List String) : OnlyAsked asked Given.Has (p.read true words) := by
  induction words generalizing p with
  | nil => exact settle_onlyAsked hp
  | cons word words ih =>
    rw [read, if_pos rfl]
    exact (takePositional_onlyAsked hp hinput word).bind fun q _ hq => ih hq

/-- The run: what is there in the end was there before, is the input, or some word in front of a
terminator asks for it. -/
theorem Progress.read_onlyAsked {p : Progress} (hp : ∀ option, p.Has option → asked option)
    (hinput : asked (.slot .input)) {words : List String}
    (hwords : ∀ word ∈ words.takeWhile (· ≠ "--"), ∀ option,
      (Word.ofString word).AsksFor option → asked option) :
    OnlyAsked asked Given.Has (p.read false words) := by
  induction words generalizing p with
  | nil => exact settle_onlyAsked hp
  | cons word words ih =>
    rw [read]
    simp only [Bool.false_eq_true, if_false]
    by_cases hword : word = "--"
    · rw [Word.ofString_eq_terminator.mpr hword]
      exact read_terminated_onlyAsked hp hinput words
    · rw [List.takeWhile_cons_of_pos (by simpa using hword)] at hwords
      obtain ⟨hfirst, hrest⟩ := List.forall_mem_cons.mp hwords
      split
      next ht => exact absurd (Word.ofString_eq_terminator.mp ht) hword
      next name value hw =>
        refine (takeNamed_onlyAsked hp ?_).bind fun q _ hq => ih hq hrest
        intro option hoption htakes
        exact hfirst option (by rw [hw]; exact ⟨hoption, htakes⟩)
      next letters hw =>
        refine (takeShort_onlyAsked hp ?_).bind fun q _ hq => ih hq hrest
        rwa [hw] at hfirst
      next => exact (takePlain_onlyAsked hp hinput word).bind fun q _ hq => ih hq hrest

end Asked

/-- Options none of which asks for something else ask for a document. -/
theorem Given.settings_document {given : Given}
    (h : ∀ option, given.Has option → option.replacesDocument = false) :
    ∃ settings, given.settings = .ok settings ∧ settings.mode = .document := by
  have hslot (slot : Slot) (hs : Named.replacesDocument (.slot slot) = true) :
      given.values.lookup slot = none := by
    refine Option.eq_none_iff_forall_ne_some.mpr fun value hvalue => ?_
    obtain ⟨l, r, hl, -⟩ := List.lookup_eq_some_iff.mp hvalue
    have hhas := h (.slot slot) ⟨value, by simp [hl]⟩
    simp [hs] at hhas
  have hswitch : Switch.listCommands ∉ given.switches := by
    intro hmem
    exact absurd (h (.switch .listCommands) hmem) (by decide)
  have hmodes : given.modes = [] := by
    simp [modes, hslot .tokenFile rfl, hslot .nodeFile rfl, hswitch]
  unfold Given.settings
  rw [hmodes]
  exact ⟨_, rfl, rfl⟩

/-- Words that ask for nothing else are refused or ask for a document. -/
theorem readArguments_document {words : List String}
    (h : ∀ word ∈ words.takeWhile (· ≠ "--"), ∀ option,
      (Word.ofString word).AsksFor option → option.replacesDocument = false) :
    (∃ reason, readArguments words = .error (.rejected reason)) ∨
      ∃ settings, readArguments words = .ok settings ∧ settings.mode = .document := by
  have hstart : ∀ option, Progress.start.Has option → option.replacesDocument = false := by
    intro option hhas
    have hempty : Given.empty.Has option := Progress.has_of_settled.mp hhas
    rcases option with slot | switch | _ | _ <;> simp [Given.Has, Given.empty] at hempty
  have hread := Progress.read_onlyAsked hstart rfl h
  unfold readArguments
  cases hr : Progress.start.read false words with
  | ok given =>
    rw [hr] at hread
    exact .inr (Given.settings_document hread)
  | error halt =>
    rw [hr] at hread
    cases halt with
    | rejected reason => exact .inl ⟨reason, rfl⟩
    | help => exact absurd (hread .help rfl) (by decide)
    | version => exact absurd (hread .version rfl) (by decide)

/-- A long word is spelled by its name and its value. -/
theorem Word.eq_of_long {word name : String} {value : Option String}
    (h : Word.ofString word = .long name value) :
    (value = none ∧ word = "--" ++ name) ∨
      ∃ v, value = some v ∧ word = "--" ++ name ++ "=" ++ v := by
  unfold Word.ofString at h
  split at h
  next => cases h
  next r _ hword =>
    obtain ⟨rfl, rfl⟩ := Word.long.inj h
    have hr : r.takeWhile (· != '=') ++ r.dropWhile (· != '=') = r :=
      List.takeWhile_append_dropWhile
    cases hd : r.dropWhile (· != '=') with
    | nil =>
      rw [hd, List.append_nil] at hr
      exact .inl ⟨rfl, String.toList_inj.mp (by simp [hword, hr])⟩
    | cons c v =>
      have hc := List.head?_dropWhile_not (· != '=') r
      obtain rfl : c = '=' := by simpa [hd] using hc
      rw [hd] at hr
      exact .inr ⟨String.ofList v, rfl, String.toList_inj.mp (by simp [hword, hr])⟩
  next => cases h
  next => cases h

/-- A short word is spelled by its letters. -/
theorem Word.eq_of_short {word : String} {letters : List Char}
    (h : Word.ofString word = .short letters) : word = "-" ++ String.ofList letters := by
  unfold Word.ofString at h
  split at h
  next => cases h
  next => cases h
  next c r _ hword =>
    obtain rfl := Word.short.inj h
    exact String.toList_inj.mp (by simp [hword])
  next => cases h

end CMakeManual.Run
