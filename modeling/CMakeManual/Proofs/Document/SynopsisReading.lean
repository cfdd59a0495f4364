import CMakeManual.Proofs.Document.Synopsis
import CMakeManual.Script.Lexeme

/-! What can be read off a synopsis. A name ends at the first parenthesis, a placeholder at the
next space, and a keyword line says by what stands behind its key which group the key is in and
whether it is demanded. So callables with plain names and keys have the same synopsis only if they
have the same name, placeholders and keys. -/
namespace CMakeManual.Document
open Text Manual Script

/-- How many values a key takes. -/
inductive ValueCount where
  | one
  | several

/-- The values as a line shows them. -/
def ValueCount.value : ValueCount → String
  | .one => "<value>"
  | .several => "<item>..."

/-- Where specs list the keys that take so many values. -/
def ValueCount.place : ValueCount → KeyPlace
  | .one => .singleValue
  | .several => .multiValue

/-- Where specs list those of them that are demanded. -/
def ValueCount.demanded : ValueCount → KeyPlace
  | .one => .demandedSingle
  | .several => .demandedMulti

/-- How a line shows a key. -/
inductive LineForm where
  | option
  | keyed (count : ValueCount) (demanded : Bool)

def LineForm.line (form : LineForm) (key : String) : String :=
  match form with
  | .option => bracketed key
  | .keyed count demanded =>
      let core := key ++ " " ++ count.value
      if demanded then core else bracketed core

/-- The specs have the key shown in this form. -/
def Shows (specs : List KeywordSpec) : LineForm → String → Prop
  | .option, key => Listed specs .options key
  | .keyed count demanded, key =>
      Listed specs count.place key ∧ (demanded = true ↔ Listed specs count.demanded key)

/-- The lines of the keys that take so many values. -/
def valueLines (specs : List KeywordSpec) (count : ValueCount) : List String :=
  (mergedKeys specs count.place.keys).map
    (valueLine (mergedKeys specs count.demanded.keys) count.value)

theorem mem_valueLines {specs : List KeywordSpec} {count : ValueCount} {line : String} :
    line ∈ valueLines specs count ↔
      ∃ demanded key, Shows specs (.keyed count demanded) key ∧
        (LineForm.keyed count demanded).line key = line := by
  rw [valueLines, List.mem_map]
  constructor
  · rintro ⟨key, hkey, rfl⟩
    refine ⟨(mergedKeys specs count.demanded.keys).contains key, key,
      ⟨mem_mergedKeys.mp hkey, ?_⟩, rfl⟩
    rw [List.contains_iff_mem, mem_mergedKeys]
  · rintro ⟨demanded, key, ⟨hlisted, hdemanded⟩, rfl⟩
    refine ⟨key, mem_mergedKeys.mpr hlisted, ?_⟩
    rw [← mem_mergedKeys, ← List.contains_iff_mem, ← Bool.eq_iff_iff] at hdemanded
    rw [hdemanded]
    rfl

theorem mem_keywordLines {specs : List KeywordSpec} {line : String} :
    line ∈ keywordLines specs ↔ ∃ form key, Shows specs form key ∧ form.line key = line := by
  have hlines : keywordLines specs = (mergedKeys specs KeyPlace.options.keys).map bracketed ++
      valueLines specs .one ++ valueLines specs .several := rfl
  rw [hlines, List.mem_append, List.mem_append, mem_valueLines, mem_valueLines, List.mem_map]
  constructor
  · rintro ((⟨key, hkey, rfl⟩ | ⟨demanded, key, hshows, rfl⟩) | ⟨demanded, key, hshows, rfl⟩)
    · exact ⟨.option, key, mem_mergedKeys.mp hkey, rfl⟩
    · exact ⟨_, key, hshows, rfl⟩
    · exact ⟨_, key, hshows, rfl⟩
  · rintro ⟨form, key, hshows, rfl⟩
    cases form with
    | option => exact .inl (.inl ⟨key, mem_mergedKeys.mpr hshows, rfl⟩)
    | keyed count demanded =>
      cases count with
      | one => exact .inl (.inr ⟨demanded, key, hshows, rfl⟩)
      | several => exact .inr ⟨demanded, key, hshows, rfl⟩

theorem listed_place_iff {specs : List KeywordSpec} {count : ValueCount} {key : String} :
    Listed specs count.place key ↔ ∃ demanded, Shows specs (.keyed count demanded) key := by
  constructor
  · intro h
    exact ⟨decide (Listed specs count.demanded key), h, decide_eq_true_iff⟩
  · rintro ⟨demanded, h, -⟩
    exact h

/-- A text of letters, digits and underscores. -/
def IsWord (s : String) : Prop := ∀ c ∈ s.toList, continuesName c = true

instance (s : String) : Decidable (IsWord s) := List.decidableBAll _ _

/-- What stands behind the key in a line. -/
def LineForm.ending : LineForm → List Char
  | .option => [']']
  | .keyed count demanded => ' ' :: count.value.toList ++ if demanded then [] else [']']

/-- The form that an ending shows. -/
def LineForm.ofEnding (ending : List Char) : LineForm :=
  if ending = [']'] then .option
  else
    .keyed (if [' ', '<', 'v'].isPrefixOf ending then .one else .several)
      (ending.getLast? != some ']')

theorem LineForm.ofEnding_ending (form : LineForm) : ofEnding form.ending = form := by
  rcases form with _ | ⟨_ | _, _ | _⟩ <;> rfl

theorem LineForm.ending_head (form : LineForm) :
    ∃ c cs, form.ending = c :: cs ∧ c ≠ '[' ∧ continuesName c = false := by
  cases form with
  | option => exact ⟨']', [], rfl, by decide, by decide⟩
  | keyed count demanded => exact ⟨' ', _, rfl, by decide, by decide⟩

theorem LineForm.toList_line (form : LineForm) (key : String) :
    (form.line key).toList = key.toList ++ form.ending ∨
      (form.line key).toList = '[' :: (key.toList ++ form.ending) := by
  rcases form with _ | ⟨count, _ | _⟩
  · exact .inr (by simp [line, bracketed, ending])
  · exact .inr (by simp [line, bracketed, ending])
  · exact .inl (by simp [line, ending])

/-- The form of a line and its key: what is left of the line without its bracket starts with the key
and goes on with the ending. -/
def readLine (line : List Char) : LineForm × List Char :=
  let unbracketed := line.dropWhile (· == '[')
  (.ofEnding (unbracketed.dropWhile continuesName), unbracketed.takeWhile continuesName)

theorem readLine_line (form : LineForm) {key : String} (hkey : IsWord key) :
    readLine (form.line key).toList = (form, key.toList) := by
  obtain ⟨c, cs, hending, hbracket, hword⟩ := form.ending_head
  -- Neither a word nor an ending starts with the bracket.
  have hstarts : (key.toList ++ form.ending).dropWhile (· == '[') = key.toList ++ form.ending := by
    cases hchars : key.toList with
    | nil => rw [hending, List.nil_append, List.dropWhile_cons_of_neg (by simpa using hbracket)]
    | cons d ds =>
      have hd : d ≠ '[' := by
        rintro rfl
        exact absurd (hkey '[' (by simp [hchars])) (by decide)
      rw [List.cons_append, List.dropWhile_cons_of_neg (by simpa using hd)]
  have hskip : (form.line key).toList.dropWhile (· == '[') = key.toList ++ form.ending := by
    rcases form.toList_line key with h | h
    · rw [h, hstarts]
    · rw [h, List.dropWhile_cons_of_pos rfl, hstarts]
  have htake : (key.toList ++ form.ending).takeWhile continuesName = key.toList := by
    rw [List.takeWhile_append_of_pos hkey, hending, List.takeWhile_cons_of_neg (by simp [hword]),
      List.append_nil]
  have hdrop : (key.toList ++ form.ending).dropWhile continuesName = form.ending := by
    rw [List.dropWhile_append_of_pos hkey, hending, List.dropWhile_cons_of_neg (by simp [hword])]
  rw [readLine, hskip, htake, hdrop, LineForm.ofEnding_ending]

/-- A line shows one key in one form. -/
theorem LineForm.line_inj {form other : LineForm} {key key' : String} (hkey : IsWord key)
    (hkey' : IsWord key') (h : form.line key = other.line key') : form = other ∧ key = key' := by
  have hread := congrArg (fun line => readLine line.toList) h
  simp only [readLine_line _ hkey, readLine_line _ hkey', Prod.mk.injEq] at hread
  exact ⟨hread.1, String.toList_inj.mp hread.2⟩

theorem append_mark_inj {mark : Char} {xs ys ds es : List Char} (hx : mark ∉ xs) (hy : mark ∉ ys)
    (h : xs ++ mark :: ds = ys ++ mark :: es) : xs = ys ∧ ds = es := by
  rcases List.append_eq_append_iff.mp h with ⟨zs, rfl, hz⟩ | ⟨zs, rfl, hz⟩
  · cases zs with
    | nil => simpa using hz
    | cons z zs =>
      obtain ⟨rfl, -⟩ := List.cons.inj hz
      exact absurd (by simp) hy
  · cases zs with
    | nil => simpa [eq_comm] using hz
    | cons z zs =>
      obtain ⟨rfl, -⟩ := List.cons.inj hz
      exact absurd (by simp) hx

/-- The pieces between spaces; there are none in an empty text. -/
def spacedPieces (cs : List Char) : List (List Char) := if cs = [] then [] else pieces ' ' cs

theorem spacedPieces_intercalate {ps : List (List Char)} (hspace : ∀ p ∈ ps, ' ' ∉ p)
    (hne : ∀ p ∈ ps, p ≠ []) : spacedPieces ([' '].intercalate ps) = ps := by
  by_cases hnone : ps = []
  · subst hnone
    rfl
  have hpieces : pieces ' ' ([' '].intercalate ps) = ps := pieces_eq_iff.mpr ⟨hnone, hspace, rfl⟩
  have hsome : [' '].intercalate ps ≠ [] := by
    intro hempty
    rw [hempty] at hpieces
    exact hne [] (by rw [← hpieces]; exact List.mem_singleton_self []) rfl
  rw [spacedPieces, if_neg hsome, hpieces]

/-- A text without blanks. -/
def IsUnbroken (s : String) : Prop := ∀ c ∈ s.toList, isBlank c = false

instance (s : String) : Decidable (IsUnbroken s) := List.decidableBAll _ _

theorem space_not_mem_placeholder {name : String} (h : IsUnbroken name) :
    ' ' ∉ (placeholder name).toList := by
  have htrim : ' ' ∉ trim name.toList :=
    fun hmem => absurd (h ' ' (mem_of_mem_trim hmem)) (by decide)
  unfold placeholder
  dsimp only
  split
  next => decide
  next =>
    split
    next => decide
    next =>
      split
      next => simpa using htrim
      next => simpa using htrim

theorem toList_opening (callable : Callable) :
    (opening callable).toList = callable.name.toList ++
      '(' :: [' '].intercalate ((callable.parameters.map placeholder).map String.toList) := by
  simp [opening, String.toList_intercalate]

theorem synopsis_of_no_keys (indent : Nat) {callable : Callable}
    (h : keywordLines callable.specs = []) :
    synopsis indent callable = [opening callable ++ ")"] := by
  simp only [synopsis, h]
  rfl

/-- A synopsis is determined by its first line and its keyword lines, and determines them. -/
theorem synopsis_eq_iff (indent : Nat) {first second : Callable} :
    synopsis indent first = synopsis indent second ↔
      opening first = opening second ∧ keywordLines first.specs = keywordLines second.specs := by
  by_cases hfirst : keywordLines first.specs = []
  · rw [synopsis_of_no_keys indent hfirst, hfirst]
    by_cases hsecond : keywordLines second.specs = []
    · rw [synopsis_of_no_keys indent hsecond, hsecond]
      simp
    · rw [synopsis_of_keys indent hsecond]
      simp [Ne.symm hsecond]
  · rw [synopsis_of_keys indent hfirst]
    by_cases hsecond : keywordLines second.specs = []
    · rw [synopsis_of_no_keys indent hsecond, hsecond]
      simp [hfirst]
    · have hpad : Function.Injective (String.ofList (List.replicate indent ' ') ++ ·) :=
        fun _ _ h => String.append_right_inj _ |>.mp h
      rw [synopsis_of_keys indent hsecond, List.cons.injEq, List.append_left_inj,
        hpad.list_map.eq_iff]

/-- The name and the keys are words, no parameter holds a blank, and what is demanded is listed. -/
structure PlainlySpelled (callable : Callable) : Prop where
  name : IsWord callable.name
  parameters : ∀ p ∈ callable.parameters, IsUnbroken p
  keys : ∀ place : KeyPlace, ∀ spec ∈ callable.specs, ∀ key ∈ place.keys spec, IsWord key
  demanded : ∀ count : ValueCount, ∀ spec ∈ callable.specs, ∀ key ∈ count.demanded.keys spec,
    Listed callable.specs count.place key

namespace PlainlySpelled
variable {callable first second : Callable}

theorem isWord (h : PlainlySpelled callable) {form : LineForm} {key : String}
    (hshows : Shows callable.specs form key) : IsWord key := by
  have hlisted : ∃ place, Listed callable.specs place key := by
    cases form with
    | option => exact ⟨_, hshows⟩
    | keyed count demanded => exact ⟨_, hshows.1⟩
  obtain ⟨place, spec, hspec, hkey⟩ := hlisted
  exact h.keys place spec hspec key hkey

theorem listed_demanded_iff (h : PlainlySpelled callable) {count : ValueCount} {key : String} :
    Listed callable.specs count.demanded key ↔ Shows callable.specs (.keyed count true) key := by
  constructor
  · rintro ⟨spec, hspec, hkey⟩
    exact ⟨h.demanded count spec hspec key hkey, iff_of_true rfl ⟨spec, hspec, hkey⟩⟩
  · rintro ⟨-, hdemanded⟩
    exact hdemanded.mp rfl

theorem spacedPieces_parameters (h : PlainlySpelled callable) :
    spacedPieces ([' '].intercalate ((callable.parameters.map placeholder).map String.toList)) =
      (callable.parameters.map placeholder).map String.toList := by
  have hshown {p : List Char} (hp : p ∈ (callable.parameters.map placeholder).map String.toList) :
      ∃ name ∈ callable.parameters, (placeholder name).toList = p := by
    simpa using hp
  apply spacedPieces_intercalate
  · intro p hp
    obtain ⟨name, hname, rfl⟩ := hshown hp
    exact space_not_mem_placeholder (h.parameters name hname)
  · intro p hp
    obtain ⟨name, -, rfl⟩ := hshown hp
    intro hempty
    have hlast := getLast?_placeholder name
    rw [hempty] at hlast
    cases hlast

theorem parenthesis_not_mem (h : PlainlySpelled callable) : '(' ∉ callable.name.toList := by
  intro hmem
  exact absurd (h.name '(' hmem) (by decide)

theorem opening_inj (hfirst : PlainlySpelled first) (hsecond : PlainlySpelled second)
    (h : opening first = opening second) :
    first.name = second.name ∧
      first.parameters.map placeholder = second.parameters.map placeholder := by
  have hchars := congrArg String.toList h
  rw [toList_opening, toList_opening] at hchars
  obtain ⟨hname, hparameters⟩ :=
    append_mark_inj hfirst.parenthesis_not_mem hsecond.parenthesis_not_mem hchars
  have hpieces := congrArg spacedPieces hparameters
  rw [hfirst.spacedPieces_parameters, hsecond.spacedPieces_parameters] at hpieces
  exact ⟨String.toList_inj.mp hname,
    List.map_injective_iff.mpr (fun _ _ => String.toList_injective) hpieces⟩

/-- Equal lines show the same keys in the same forms. -/
theorem shows_of_keywordLines (hfirst : PlainlySpelled first) (hsecond : PlainlySpelled second)
    (h : keywordLines first.specs = keywordLines second.specs) {form : LineForm} {key : String}
    (hshows : Shows first.specs form key) : Shows second.specs form key := by
  have hline : form.line key ∈ keywordLines second.specs :=
    h ▸ mem_keywordLines.mpr ⟨form, key, hshows, rfl⟩
  obtain ⟨other, key', hshows', hsame⟩ := mem_keywordLines.mp hline
  obtain ⟨rfl, rfl⟩ := LineForm.line_inj (hsecond.isWord hshows') (hfirst.isWord hshows) hsame
  exact hshows'

end PlainlySpelled

/-- The same name, the same placeholders, and the same keys in each place. -/
structure SameSchema (first second : Callable) : Prop where
  name : first.name = second.name
  placeholders : first.parameters.map placeholder = second.parameters.map placeholder
  listed : ∀ place key, Listed first.specs place key ↔ Listed second.specs place key

theorem listed_iff_of_shows {first second : Callable} (hfirst : PlainlySpelled first)
    (hsecond : PlainlySpelled second)
    (h : ∀ form key, Shows first.specs form key ↔ Shows second.specs form key) (place : KeyPlace)
    (key : String) : Listed first.specs place key ↔ Listed second.specs place key := by
  have hplace (count : ValueCount) :
      Listed first.specs count.place key ↔ Listed second.specs count.place key := by
    rw [listed_place_iff, listed_place_iff]
    simp only [h]
  have hdemanded (count : ValueCount) :
      Listed first.specs count.demanded key ↔ Listed second.specs count.demanded key := by
    rw [hfirst.listed_demanded_iff, hsecond.listed_demanded_iff, h]
  cases place with
  | options => exact h .option key
  | singleValue => exact hplace .one
  | multiValue => exact hplace .several
  | demandedSingle => exact hdemanded .one
  | demandedMulti => exact hdemanded .several

/-- Plainly spelled callables have the same synopsis exactly if they have the same name, the same
placeholders, the same keys in each group and the same demanded keys. -/
theorem synopsis_decodable (indent : Nat) {first second : Callable} (hfirst : PlainlySpelled first)
    (hsecond : PlainlySpelled second) :
    synopsis indent first = synopsis indent second ↔ SameSchema first second := by
  rw [synopsis_eq_iff]
  constructor
  · rintro ⟨hopening, hlines⟩
    obtain ⟨hname, hplaceholders⟩ := hfirst.opening_inj hsecond hopening
    refine ⟨hname, hplaceholders, listed_iff_of_shows hfirst hsecond fun form key => ⟨?_, ?_⟩⟩
    · exact hfirst.shows_of_keywordLines hsecond hlines
    · exact hsecond.shows_of_keywordLines hfirst hlines.symm
  · rintro ⟨hname, hplaceholders, hlisted⟩
    refine ⟨?_, (keywordLines_congr hlisted).symm⟩
    rw [opening, opening, hname, hplaceholders]

/-- Parameters that differ in spelling and have the same placeholders, and keys that one spec lists
or two. One key is in all three groups, demanded in one of them. -/
theorem synopsis_decodable_split :
    let list (keys required : List String) : KeyList := ⟨keys, required, .literal⟩
    let whole : KeywordSpec := ⟨"P", list ["ALL", "K"] [], list ["K", "J"] ["K"], list ["K"] []⟩
    let front : KeywordSpec := ⟨"Q", list ["K"] [], list ["K"] [], list [] []⟩
    let back : KeywordSpec := ⟨"R", list ["ALL"] [], list ["J", "K"] ["K"], list ["K", "K"] []⟩
    let first : Callable := ⟨.functionBlock, "f", ["x", "visibility", "(a)"], "", 1, [whole]⟩
    let second : Callable :=
      ⟨.macroBlock, "f", ["<x>", "VISIBILITY", "<(a)>"], "doc", 9, [front, back]⟩
    PlainlySpelled first ∧ PlainlySpelled second ∧ SameSchema first second ∧
    synopsis 2 first =
      ["f(<x> <PRIVATE|PUBLIC|INTERFACE> <(a)>", "  [ALL]", "  [K]", "  [J <value>]", "  K <value>",
        "  [K <item>...]", ")"] ∧
    synopsis 2 second = synopsis 2 first := by
  intro list whole front back first second
  have hfirst : PlainlySpelled first := by
    refine ⟨by decide, by decide, fun place => ?_, fun count => ?_⟩
    · cases place <;> decide
    · cases count <;> decide
  have hsecond : PlainlySpelled second := by
    refine ⟨by decide, by decide, fun place => ?_, fun count => ?_⟩
    · cases place <;> decide
    · cases count <;> decide
  have hsame : synopsis 2 first = synopsis 2 second := by decide +kernel
  exact ⟨hfirst, hsecond, (synopsis_decodable 2 hfirst hsecond).mp hsame, by decide +kernel,
    hsame.symm⟩

end CMakeManual.Document
