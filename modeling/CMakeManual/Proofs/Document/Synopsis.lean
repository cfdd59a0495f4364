import CMakeManual.Document.Synopsis
import CMakeManual.Proofs.Text.Bytes
import CMakeManual.Proofs.Text.Parts
import Mathlib.Data.List.Sort
import Mathlib.Data.String.Basic

/-! What a synopsis shows. The keys of all specs are merged by place, so a synopsis depends on which
keys the specs list in which place and on nothing else about them. Each key that is shown has one
line, the lines of a place stand in the order of their keys' bytes, and a key with values is in
brackets exactly if no spec demands it. -/
namespace CMakeManual.Document
open Text Manual

theorem getLast?_placeholder (name : String) : (placeholder name).toList.getLast? = some '>' := by
  unfold placeholder
  dsimp only
  split
  next => decide
  next =>
    split
    next => decide
    next =>
      split
      next hangles => simpa using (Bool.and_eq_true_iff.mp hangles).2
      next =>
        rw [String.toList_append, List.getLast?_append]
        rfl

theorem getLast?_intercalate {separator : List Char} {c : Char} {ps : List (List Char)}
    (hne : ps ≠ []) (h : ∀ p ∈ ps, p.getLast? = some c) :
    (separator.intercalate ps).getLast? = some c := by
  induction ps with
  | nil => exact absurd rfl hne
  | cons p ps ih =>
    cases ps with
    | nil => simpa using h
    | cons p' ps =>
      have hrest := ih (List.cons_ne_nil p' ps) fun q hq => h q (List.mem_cons_of_mem p hq)
      rw [List.intercalate_cons_cons, List.getLast?_append, hrest, Option.some_or]

/-- The line up to the parameters. -/
def opening (callable : Callable) : String :=
  callable.name ++ "(" ++ " ".intercalate (callable.parameters.map placeholder)

/-- The line ends with the parenthesis or with a placeholder, so never with a blank. -/
theorem getLast?_opening (callable : Callable) :
    ∀ c ∈ (opening callable).toList.getLast?, isBlank c = false := by
  have hends : (opening callable).toList.getLast? = some '(' ∨
      (opening callable).toList.getLast? = some '>' := by
    rw [opening, String.toList_append, String.toList_append, String.toList_intercalate]
    by_cases hnone : callable.parameters = []
    · left
      simp [hnone]
    · right
      rw [List.getLast?_append, getLast?_intercalate (c := '>') (by simpa using hnone),
        Option.some_or]
      intro p hp
      obtain ⟨_, hmem, rfl⟩ := List.mem_map.mp hp
      obtain ⟨name, -, rfl⟩ := List.mem_map.mp hmem
      exact getLast?_placeholder name
  intro c hc
  rcases hends with hlast | hlast
  all_goals
    obtain rfl := Option.some.inj (hlast.symm.trans hc)
    decide

theorem trimEnd_opening (callable : Callable) :
    String.ofList (trimEnd (opening callable).toList) = opening callable := by
  rw [trimEnd, dropEndWhile_eq_self (getLast?_opening callable), String.ofList_toList]

theorem mem_insertKey {x key : String} {keys : List String} :
    x ∈ insertKey key keys ↔ x = key ∨ x ∈ keys := by
  induction keys with
  | nil => simp [insertKey]
  | cons k keys ih =>
    unfold insertKey
    split
    next => exact List.mem_cons
    next =>
      split
      next heq => simp [heq]
      next => rw [List.mem_cons, ih, List.mem_cons, or_left_comm]

theorem insertKey_increasing (key : String) {keys : List String} (h : keys.Pairwise (· < ·)) :
    (insertKey key keys).Pairwise (· < ·) := by
  induction keys with
  | nil => exact List.pairwise_singleton _ _
  | cons k keys ih =>
    obtain ⟨hk, hkeys⟩ := List.pairwise_cons.mp h
    unfold insertKey
    split
    next hlt =>
      refine List.pairwise_cons.mpr ⟨?_, h⟩
      intro x hx
      rcases List.mem_cons.mp hx with rfl | hx
      · exact hlt
      · exact hlt.trans (hk x hx)
    next hnot =>
      split
      next => exact h
      next hne =>
        refine List.pairwise_cons.mpr ⟨?_, ih hkeys⟩
        intro x hx
        rcases mem_insertKey.mp hx with rfl | hx
        · exact lt_of_le_of_ne (not_lt.mp hnot) (Ne.symm hne)
        · exact hk x hx

theorem mem_sortKeys {key : String} {keys : List String} : key ∈ sortKeys keys ↔ key ∈ keys := by
  unfold sortKeys
  induction keys with
  | nil => rfl
  | cons k keys ih => rw [List.foldr_cons, mem_insertKey, ih, List.mem_cons]

theorem sortKeys_increasing (keys : List String) : (sortKeys keys).Pairwise (· < ·) := by
  unfold sortKeys
  induction keys with
  | nil => exact List.Pairwise.nil
  | cons k keys ih => exact insertKey_increasing k ih

/-- Where a spec lists keys that a synopsis reads. -/
inductive KeyPlace where
  | options
  | singleValue
  | multiValue
  | demandedSingle
  | demandedMulti

def KeyPlace.keys (place : KeyPlace) (spec : KeywordSpec) : List String :=
  match place with
  | .options => spec.options.keys
  | .singleValue => spec.singleValue.keys
  | .multiValue => spec.multiValue.keys
  | .demandedSingle => spec.singleValue.required
  | .demandedMulti => spec.multiValue.required

/-- Some spec lists the key in this place. -/
def Listed (specs : List KeywordSpec) (place : KeyPlace) (key : String) : Prop :=
  ∃ spec ∈ specs, key ∈ place.keys spec

instance (specs : List KeywordSpec) (place : KeyPlace) (key : String) :
    Decidable (Listed specs place key) :=
  inferInstanceAs (Decidable (∃ spec ∈ specs, key ∈ place.keys spec))

/-- The keys that the specs list in this place, each once, in the order of their bytes. -/
structure Merged (specs : List KeywordSpec) (place : KeyPlace) (keys : List String) : Prop where
  increasing : keys.Pairwise BytesBefore
  mem : ∀ key, key ∈ keys ↔ Listed specs place key

theorem mem_mergedKeys {specs : List KeywordSpec} {place : KeyPlace} {key : String} :
    key ∈ mergedKeys specs place.keys ↔ Listed specs place key := by
  rw [mergedKeys, mem_sortKeys, List.mem_flatMap, Listed]

theorem merged_mergedKeys (specs : List KeywordSpec) (place : KeyPlace) :
    Merged specs place (mergedKeys specs place.keys) :=
  ⟨(sortKeys_increasing _).imp bytesBefore_of_lt, fun _ => mem_mergedKeys⟩

/-- Merging reads off which keys are listed, and nothing else. -/
theorem mergedKeys_congr {specs specs' : List KeywordSpec} {place : KeyPlace}
    (h : ∀ key, Listed specs place key ↔ Listed specs' place key) :
    mergedKeys specs' place.keys = mergedKeys specs place.keys :=
  (sortKeys_increasing _).eq_of_mem_iff (sortKeys_increasing _) fun key =>
    mem_mergedKeys.trans ((h key).symm.trans mem_mergedKeys.symm)

theorem keywordLines_eq (specs : List KeywordSpec) :
    keywordLines specs =
      (mergedKeys specs KeyPlace.options.keys).map bracketed ++
        (mergedKeys specs KeyPlace.singleValue.keys).map
          (valueLine (mergedKeys specs KeyPlace.demandedSingle.keys) "<value>") ++
        (mergedKeys specs KeyPlace.multiValue.keys).map
          (valueLine (mergedKeys specs KeyPlace.demandedMulti.keys) "<item>...") :=
  rfl

theorem keywordLines_congr {specs specs' : List KeywordSpec}
    (h : ∀ place key, Listed specs place key ↔ Listed specs' place key) :
    keywordLines specs' = keywordLines specs := by
  simp only [keywordLines_eq, mergedKeys_congr (h _)]

/-- The key with its value, in brackets unless some spec demands it. -/
def keyLine (specs : List KeywordSpec) (place : KeyPlace) (value key : String) : String :=
  if Listed specs place key then key ++ " " ++ value else "[" ++ key ++ " " ++ value ++ "]"

theorem valueLine_mergedKeys (specs : List KeywordSpec) (place : KeyPlace) (value : String) :
    valueLine (mergedKeys specs place.keys) value = keyLine specs place value := by
  funext key
  simp only [valueLine, keyLine, List.contains_eq_mem, mem_mergedKeys, decide_eq_true_eq, bracketed,
    String.append_assoc]

/-- Specs in another arrangement: in another order, with one of them repeated or split in two, or
with the keys of a list in another order or repeated. -/
inductive Rearranged : List KeywordSpec → List KeywordSpec → Prop where
  | permuted {specs specs' : List KeywordSpec} (h : specs.Perm specs') : Rearranged specs specs'
  | repeated {spec : KeywordSpec} {specs : List KeywordSpec} (h : spec ∈ specs) :
      Rearranged specs (spec :: specs)
  | split {spec first second : KeywordSpec} (before after : List KeywordSpec)
      (h : ∀ place : KeyPlace, place.keys spec = place.keys first ++ place.keys second) :
      Rearranged (before ++ spec :: after) (before ++ first :: second :: after)
  | relisted {spec other : KeywordSpec} (before after : List KeywordSpec)
      (h : ∀ (place : KeyPlace) key, key ∈ place.keys spec ↔ key ∈ place.keys other) :
      Rearranged (before ++ spec :: after) (before ++ other :: after)
  | symm {specs specs' : List KeywordSpec} (h : Rearranged specs specs') : Rearranged specs' specs
  | trans {specs specs' specs'' : List KeywordSpec} (h : Rearranged specs specs')
      (h' : Rearranged specs' specs'') : Rearranged specs specs''

/-- No arrangement changes which keys are listed. -/
theorem Rearranged.listed {specs specs' : List KeywordSpec} (h : Rearranged specs specs')
    (place : KeyPlace) (key : String) : Listed specs place key ↔ Listed specs' place key := by
  unfold Listed
  induction h with
  | permuted h => simp only [h.mem_iff]
  | @repeated spec specs h =>
    constructor
    · rintro ⟨other, hother, hkey⟩
      exact ⟨other, List.mem_cons_of_mem spec hother, hkey⟩
    · rintro ⟨other, hother, hkey⟩
      rcases List.mem_cons.mp hother with rfl | hother
      · exact ⟨other, h, hkey⟩
      · exact ⟨other, hother, hkey⟩
  | split before after h => simp [or_and_right, exists_or, h, or_assoc]
  | relisted before after h => simp [or_and_right, exists_or, h]
  | symm _ ih => exact ih.symm
  | trans _ _ ih ih' => exact ih.trans ih'

/-- Specs that list a key have lines. -/
theorem keywordLines_ne_nil {specs : List KeywordSpec}
    (h : ∃ key, Listed specs .options key ∨ Listed specs .singleValue key ∨
      Listed specs .multiValue key) : keywordLines specs ≠ [] := by
  rw [keywordLines_eq]
  simp only [ne_eq, List.append_eq_nil_iff, List.map_eq_nil_iff, not_and]
  obtain ⟨key, hkey⟩ := h
  simp only [← mem_mergedKeys] at hkey
  rintro ⟨hoptions, hsingle⟩ hmulti
  simp [hoptions, hsingle, hmulti] at hkey

theorem synopsis_of_keys (indent : Nat) {callable : Callable}
    (h : keywordLines callable.specs ≠ []) :
    synopsis indent callable =
      opening callable :: ((keywordLines callable.specs).map
        (String.ofList (List.replicate indent ' ') ++ ·) ++ [")"]) := by
  unfold synopsis
  split
  next hnone => exact absurd hnone h
  next => exact congrArg (· :: _) (trimEnd_opening callable)

theorem synopsis_congr (indent : Nat) (callable : Callable) {specs : List KeywordSpec}
    (h : keywordLines specs = keywordLines callable.specs) :
    synopsis indent { callable with specs } = synopsis indent callable := by
  simp only [synopsis, h]

/-- A synopsis is the merged schema: the opening line, untrimmed, a line for each key, group by
group in the order of bytes, and the closing parenthesis. So no arrangement of the specs shows in
it. -/
theorem synopsis_schema (indent : Nat) (callable : Callable) :
    ((∃ key, Listed callable.specs .options key ∨ Listed callable.specs .singleValue key ∨
        Listed callable.specs .multiValue key) →
      ∃ options single multi, Merged callable.specs .options options ∧
        Merged callable.specs .singleValue single ∧ Merged callable.specs .multiValue multi ∧
        synopsis indent callable =
          (callable.name ++ "(" ++ " ".intercalate (callable.parameters.map placeholder)) ::
            ((options.map (fun key => "[" ++ key ++ "]") ++
              single.map (keyLine callable.specs .demandedSingle "<value>") ++
              multi.map (keyLine callable.specs .demandedMulti "<item>...")).map
                (String.ofList (List.replicate indent ' ') ++ ·) ++ [")"])) ∧
    ∀ specs, Rearranged callable.specs specs →
      synopsis indent { callable with specs } = synopsis indent callable := by
  constructor
  · intro hkey
    refine ⟨_, _, _, merged_mergedKeys _ _, merged_mergedKeys _ _, merged_mergedKeys _ _, ?_⟩
    rw [synopsis_of_keys indent (keywordLines_ne_nil hkey), keywordLines_eq,
      valueLine_mergedKeys, valueLine_mergedKeys]
    rfl
  · intro specs h
    exact synopsis_congr indent callable (keywordLines_congr h.listed)

/-- A key demanded by one of two specs, options out of order and repeated, and keys whose order by
bytes is not that of letters. -/
theorem synopsis_schema_merged :
    let list (keys required : List String) : KeyList := ⟨keys, required, .literal⟩
    let first : KeywordSpec := ⟨"P", list ["b", "a", "b"] [], list ["K"] [], list [] []⟩
    let second : KeywordSpec :=
      ⟨"Q", list ["B"] [], list ["J", "K"] ["K"], list ["é", "z", "😀", "\uffff"] ["z"]⟩
    let callable : Callable := ⟨.functionBlock, "f", ["x", " visibility"], "", 1, [first, second]⟩
    Listed callable.specs .options "a" ∧ Rearranged callable.specs [second, first, second] ∧
    (∃ options single multi, Merged callable.specs .options options ∧
      Merged callable.specs .singleValue single ∧ Merged callable.specs .multiValue multi ∧
      synopsis 2 callable = "f(<x> <PRIVATE|PUBLIC|INTERFACE>" ::
        ((options.map (fun key => "[" ++ key ++ "]") ++
          single.map (keyLine callable.specs .demandedSingle "<value>") ++
          multi.map (keyLine callable.specs .demandedMulti "<item>...")).map ("  " ++ ·) ++
            [")"])) ∧
    synopsis 2 callable =
      ["f(<x> <PRIVATE|PUBLIC|INTERFACE>", "  [B]", "  [a]", "  [b]", "  [J <value>]",
        "  K <value>", "  z <item>...", "  [é <item>...]", "  [\uffff <item>...]",
        "  [😀 <item>...]", ")"] ∧
    synopsis 2 { callable with specs := [second, first, second] } = synopsis 2 callable := by
  intro list first second callable
  have hlisted : Listed callable.specs .options "a" := by decide
  have hrearranged : Rearranged callable.specs [second, first, second] :=
    .repeated (by simp [callable])
  obtain ⟨hshows, hunchanged⟩ := synopsis_schema 2 callable
  have hmerged := hshows ⟨"a", .inl hlisted⟩
  have hopening : callable.name ++ "(" ++ " ".intercalate (callable.parameters.map placeholder) =
      "f(<x> <PRIVATE|PUBLIC|INTERFACE>" := by decide +kernel
  rw [hopening] at hmerged
  exact ⟨hlisted, hrearranged, hmerged, by decide +kernel, hunchanged _ hrearranged⟩

end CMakeManual.Document
