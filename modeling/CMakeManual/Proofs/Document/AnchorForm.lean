import CMakeManual.Document.Anchor
import CMakeManual.Proofs.Text.Parts
import Mathlib.Data.List.Infix
import Mathlib.Data.Set.Image
import Mathlib.Tactic.MkIffOfInductiveProp

/-! The form of anchors. The pass over a name gives what lower case, replacing, deleting, collapsing
and stripping give one after the other, and the texts that it can give are the texts that it leaves
alone. Lower case is a parameter here, since the pass reads off it only what an anchor keeps. -/
namespace CMakeManual.Document
open Text

/-- The characters of an anchor. -/
def IsAnchorChar (c : Char) : Prop := 'a' ≤ c ∧ c ≤ 'z' ∨ '0' ≤ c ∧ c ≤ '9' ∨ c = '-'

instance (c : Char) : Decidable (IsAnchorChar c) :=
  inferInstanceAs (Decidable ('a' ≤ c ∧ c ≤ 'z' ∨ '0' ≤ c ∧ c ≤ '9' ∨ c = '-'))

theorem isAnchorChar_iff {c : Char} : IsAnchorChar c ↔ isAnchorWord c = true ∨ c = '-' := by
  have hword : isAnchorWord c =
      ((decide ('a'.val ≤ c.val) && decide (c.val ≤ 'z'.val)) ||
        (decide ('0'.val ≤ c.val) && decide (c.val ≤ '9'.val))) := rfl
  rw [hword]
  simp only [IsAnchorChar, Char.le_def, Bool.or_eq_true, Bool.and_eq_true, decide_eq_true_eq,
    or_assoc]

theorem IsAnchorChar.toNat_cases {c : Char} (h : IsAnchorChar c) :
    97 ≤ c.toNat ∧ c.toNat ≤ 122 ∨ 48 ≤ c.toNat ∧ c.toNat ≤ 57 ∨ c.toNat = 45 := by
  simp only [IsAnchorChar, Char.le_def, UInt32.le_iff_toNat_le] at h
  exact h.imp_right (Or.imp_right (congrArg Char.toNat))

theorem toNat_of_isBlank {c : Char} (h : isBlank c = true) :
    c.toNat ≤ 32 ∨ c.toNat = 0x85 ∨ c.toNat = 0xA0 ∨ 0x1680 ≤ c.toNat ∧ c.toNat ≤ 0x205F ∨
      c.toNat = 0x3000 := by
  simp only [isBlank, Bool.or_eq_true, Bool.and_eq_true, decide_eq_true_eq, beq_iff_eq] at h
  omega

theorem IsAnchorChar.not_blank {c : Char} (h : IsAnchorChar c) : isBlank c = false := by
  have hcode := h.toNat_cases
  rw [Bool.eq_false_iff]
  intro hblank
  have hblank := toNat_of_isBlank hblank
  omega

/-- What a character leaves in an anchor. -/
def anchorChar? (c : Char) : Option Char :=
  if isAnchorWord c then some c else if isAnchorGap c then some '-' else none

/-- What an anchor keeps of a text, with all its dashes. -/
def keptChars (cs : List Char) : List Char := cs.filterMap anchorChar?

theorem anchorChar?_of_isAnchorChar {c : Char} (h : IsAnchorChar c) : anchorChar? c = some c := by
  rcases isAnchorChar_iff.mp h with hword | rfl
  · simp [anchorChar?, hword]
  · rfl

theorem anchorChar?_of_isBlank {c : Char} (h : isBlank c = true) : anchorChar? c = some '-' := by
  have hword : ¬ isAnchorWord c = true := by
    intro hword
    rw [(isAnchorChar_iff.mpr (.inl hword)).not_blank] at h
    cases h
  simp [anchorChar?, hword, isAnchorGap, h]

theorem anchorChar?_eq_none {c : Char} (h : ¬ IsAnchorChar c) (hjoin : c ≠ '_')
    (hblank : isBlank c = false) : anchorChar? c = none := by
  rw [isAnchorChar_iff, not_or] at h
  simp [anchorChar?, h, isAnchorGap, hjoin, hblank]

theorem isAnchorChar_of_mem_keptChars {cs : List Char} {c : Char} (h : c ∈ keptChars cs) :
    IsAnchorChar c := by
  obtain ⟨d, -, hd⟩ := List.mem_filterMap.mp h
  unfold anchorChar? at hd
  rw [isAnchorChar_iff]
  split at hd
  next hword => exact .inl (Option.some.inj hd ▸ hword)
  next =>
    split at hd
    next => exact .inr (Option.some.inj hd).symm
    next => cases hd

theorem keptChars_eq_self {cs : List Char} (h : ∀ c ∈ cs, IsAnchorChar c) : keptChars cs = cs := by
  have hsome : ∀ c ∈ cs, anchorChar? c = some c := fun c hc => anchorChar?_of_isAnchorChar (h c hc)
  rw [keptChars, List.filterMap_congr hsome, List.filterMap_some]

/-- Leaves one dash of every run of dashes. -/
def collapseDashes : List Char → List Char
  | [] => []
  | c :: cs => if c = '-' ∧ cs.head? = some '-' then collapseDashes cs else c :: collapseDashes cs

theorem twoDashes_infix_cons {c : Char} {cs : List Char} :
    ['-', '-'] <:+: c :: cs ↔ (c = '-' ∧ cs.head? = some '-') ∨ ['-', '-'] <:+: cs := by
  rw [List.infix_cons_iff, List.cons_prefix_cons, List.singleton_prefix_iff_head?_eq_some,
    eq_comm (a := c)]

theorem collapseDashes_sublist (cs : List Char) : (collapseDashes cs).Sublist cs := by
  induction cs with
  | nil => exact List.Sublist.slnil
  | cons c cs ih =>
    rw [collapseDashes]
    split
    next => exact ih.cons c
    next => exact ih.cons_cons c

theorem head?_collapseDashes (cs : List Char) : (collapseDashes cs).head? = cs.head? := by
  induction cs with
  | nil => rfl
  | cons c cs ih =>
    rw [collapseDashes]
    split
    next hrun => rw [ih, hrun.2, hrun.1, List.head?_cons]
    next => rfl

theorem collapseDashes_single (cs : List Char) : ¬ ['-', '-'] <:+: collapseDashes cs := by
  induction cs with
  | nil => simp [collapseDashes]
  | cons c cs ih =>
    rw [collapseDashes]
    split
    next => exact ih
    next hrun =>
      rw [twoDashes_infix_cons, head?_collapseDashes, not_or]
      exact ⟨hrun, ih⟩

theorem collapseDashes_eq_self {cs : List Char} (h : ¬ ['-', '-'] <:+: cs) :
    collapseDashes cs = cs := by
  induction cs with
  | nil => rfl
  | cons c cs ih =>
    rw [twoDashes_infix_cons, not_or] at h
    rw [collapseDashes, if_neg h.1, ih h.2]

/-- The pass writes the first dash of a run, collapsing leaves the last: the texts are the same. The
second half is what the pass has left to write behind a dash. -/
theorem anchorChars_eq_collapseDashes (cs : List Char) :
    anchorChars false cs = collapseDashes (keptChars cs) ∧
      '-' :: anchorChars true cs = collapseDashes ('-' :: keptChars cs) := by
  induction cs with
  | nil => exact ⟨rfl, rfl⟩
  | cons c cs ih =>
    obtain ⟨hfresh, hdashed⟩ := ih
    by_cases hword : isAnchorWord c = true
    · have hkept : keptChars (c :: cs) = c :: keptChars cs := by
        simp [keptChars, anchorChar?, hword]
      have hne : c ≠ '-' := by
        rintro rfl
        cases hword
      simp [anchorChars, hword, hkept, collapseDashes, hne, hfresh]
    by_cases hgap : isAnchorGap c = true
    · have hkept : keptChars (c :: cs) = '-' :: keptChars cs := by
        simp [keptChars, anchorChar?, hword, hgap]
      simp [anchorChars, hword, hgap, hkept, hdashed, collapseDashes]
    · have hkept : keptChars (c :: cs) = keptChars cs := by
        simp [keptChars, anchorChar?, hword, hgap]
      simp [anchorChars, hword, hgap, hkept, hfresh, hdashed]

theorem withoutEdgeDashes_isInfix (cs : List Char) : withoutEdgeDashes cs <:+: cs :=
  (dropEndWhile_isPrefix _ _).isInfix.trans (List.dropWhile_suffix _).isInfix

theorem head?_withoutEdgeDashes (cs : List Char) : (withoutEdgeDashes cs).head? ≠ some '-' := by
  intro hhead
  obtain ⟨back, hback⟩ := dropEndWhile_isPrefix (· == '-') (cs.dropWhile (· == '-'))
  have hdash : '-' ∈ (cs.dropWhile (· == '-')).head? := by
    rw [← hback, List.head?_append, show (dropEndWhile _ _).head? = some '-' from hhead]
    rfl
  exact absurd (of_mem_head?_dropWhile hdash) (by decide)

theorem getLast?_withoutEdgeDashes (cs : List Char) :
    (withoutEdgeDashes cs).getLast? ≠ some '-' := by
  intro hlast
  exact absurd (of_mem_getLast?_dropEndWhile hlast) (by decide)

theorem withoutEdgeDashes_eq_self {cs : List Char} (hhead : cs.head? ≠ some '-')
    (hlast : cs.getLast? ≠ some '-') : withoutEdgeDashes cs = cs := by
  have hstart : cs.dropWhile (· == '-') = cs := by
    cases cs with
    | nil => rfl
    | cons c cs => exact List.dropWhile_cons_of_neg (by simpa using hhead)
  rw [withoutEdgeDashes, hstart]
  apply dropEndWhile_eq_self
  intro c hc
  simp only [beq_eq_false_iff_ne]
  rintro rfl
  exact hlast hc

/-- A dash in front does not change what collapsing and stripping leave. -/
theorem strip_collapse_cons (cs : List Char) :
    withoutEdgeDashes (collapseDashes ('-' :: cs)) = withoutEdgeDashes (collapseDashes cs) := by
  rw [collapseDashes]
  split
  next => rfl
  next => rfl

theorem collapseDashes_concat (cs : List Char) :
    collapseDashes (cs ++ ['-']) = collapseDashes cs ∨
      collapseDashes (cs ++ ['-']) = collapseDashes cs ++ ['-'] := by
  induction cs with
  | nil => exact .inr rfl
  | cons c cs ih =>
    cases cs with
    | nil => by_cases hc : c = '-' <;> simp [collapseDashes, hc]
    | cons d cs =>
      rw [List.cons_append, collapseDashes, collapseDashes, List.cons_append, List.head?_cons,
        List.head?_cons, ← List.cons_append]
      split
      next => exact ih
      next => exact ih.imp (congrArg (c :: ·)) (congrArg (c :: ·))

theorem strip_concat (cs : List Char) : withoutEdgeDashes (cs ++ ['-']) = withoutEdgeDashes cs := by
  rw [withoutEdgeDashes, withoutEdgeDashes, List.dropWhile_append]
  split
  next hnone =>
    rw [List.isEmpty_iff.mp hnone]
    rfl
  next => exact List.rdropWhile_concat_pos _ _ _ rfl

/-- A dash behind does not change what collapsing and stripping leave. -/
theorem strip_collapse_concat (cs : List Char) :
    withoutEdgeDashes (collapseDashes (cs ++ ['-'])) = withoutEdgeDashes (collapseDashes cs) := by
  rcases collapseDashes_concat cs with h | h
  · rw [h]
  · rw [h, strip_concat]

theorem strip_collapse_front {front : List Char} (h : ∀ c ∈ front, c = '-') (cs : List Char) :
    withoutEdgeDashes (collapseDashes (front ++ cs)) = withoutEdgeDashes (collapseDashes cs) := by
  induction front with
  | nil => rfl
  | cons c front ih =>
    obtain rfl := h c (by simp)
    rw [List.cons_append, strip_collapse_cons]
    exact ih fun d hd => h d (by simp [hd])

theorem strip_collapse_back {back : List Char} (h : ∀ c ∈ back, c = '-') (cs : List Char) :
    withoutEdgeDashes (collapseDashes (cs ++ back)) = withoutEdgeDashes (collapseDashes cs) := by
  induction back using List.reverseRecOn with
  | nil => rw [List.append_nil]
  | append_singleton back c ih =>
    obtain rfl := h c (by simp)
    rw [← List.append_assoc, strip_collapse_concat]
    exact ih fun d hd => h d (by simp [hd])

/-- A lower case of whole texts, as far as an anchor reads it: what is kept of a text is what is
kept of its parts, and a blank stays as it is. A letter whose lower case depends on the letters
around it, as that of the sigma does, is none that an anchor keeps. -/
structure LowerCasing (lower : List Char → List Char) : Prop where
  apart : ∀ cs ds, keptChars (lower (cs ++ ds)) = keptChars (lower cs) ++ keptChars (lower ds)
  blank : ∀ c, isBlank c = true → lower [c] = [c]

section LowerCase
variable {lower : List Char → List Char}

theorem LowerCasing.keptChars_eq (h : LowerCasing lower) (cs : List Char) :
    keptChars (lower cs) = cs.flatMap fun c => keptChars (lower [c]) := by
  induction cs with
  | nil => exact List.self_eq_append_right.mp (h.apart [] [])
  | cons c cs ih => rw [← List.singleton_append, h.apart, ih, List.flatMap_append,
      List.flatMap_singleton]

theorem LowerCasing.kept_dashes (h : LowerCasing lower) {cs : List Char}
    (hblank : ∀ c ∈ cs, isBlank c = true) : ∀ c ∈ keptChars (lower cs), c = '-' := by
  intro c hc
  rw [h.keptChars_eq] at hc
  obtain ⟨d, hd, hmem⟩ := List.mem_flatMap.mp hc
  have hdash : keptChars [d] = ['-'] := by
    simp [keptChars, anchorChar?_of_isBlank (hblank d hd)]
  rw [h.blank d (hblank d hd), hdash] at hmem
  exact List.mem_singleton.mp hmem

/-- A lower case that is taken character by character. -/
theorem lowerCasing_flatMap {f : Char → List Char} (h : ∀ c, isBlank c = true → f c = [c]) :
    LowerCasing fun cs => cs.flatMap f where
  apart cs ds := by rw [List.flatMap_append, keptChars, List.filterMap_append]; rfl
  blank c hc := by rw [List.flatMap_singleton, h c hc]

theorem toLower_eq_self {c : Char} (h : isBlank c = true ∨ IsAnchorChar c ∨ c = '_') :
    c.toLower = c := by
  apply dif_neg
  intro hupper
  have hcode : 65 ≤ c.toNat ∧ c.toNat ≤ 90 := by
    simp only [ge_iff_le, UInt32.le_iff_toNat_le] at hupper
    exact hupper
  rcases h with h | h | rfl
  · have hblank := toNat_of_isBlank h
    omega
  · have hchar := h.toNat_cases
    omega
  · revert hcode
    decide

/-- The lower case in use leaves blanks and what an anchor is made from as they are. -/
theorem lowerForAnchor_eq_self {c : Char} (h : isBlank c = true ∨ IsAnchorChar c ∨ c = '_') :
    lowerForAnchor c = [c] := by
  have hdotted : c ≠ '\u0130' := by
    rintro rfl
    revert h
    decide
  have hkelvin : c ≠ '\u212a' := by
    rintro rfl
    revert h
    decide
  rw [lowerForAnchor, if_neg hdotted, if_neg hkelvin, toLower_eq_self h]

theorem lowerCasing_lowerForAnchor : LowerCasing fun cs => cs.flatMap lowerForAnchor :=
  lowerCasing_flatMap fun _ hc => lowerForAnchor_eq_self (.inl hc)

/-- The anchor of a name that `lower` gives its lower case. -/
def anchorBy (lower : List Char → List Char) (name : String) : String :=
  match withoutEdgeDashes (anchorChars false (lower (trim name.toList))) with
  | [] => unnamedAnchor
  | cs => String.ofList cs

theorem anchor_eq_anchorBy : anchor = anchorBy fun cs => cs.flatMap lowerForAnchor := by
  funext name
  unfold anchor anchorBy
  cases withoutEdgeDashes (anchorChars false ((trim name.toList).flatMap lowerForAnchor)) with
  | nil => rfl
  | cons c cs => rfl

/-- The text of an anchor of which `cs` is left. -/
def anchorText (cs : List Char) : String := if cs = [] then "section" else String.ofList cs

theorem anchorBy_eq_anchorText (lower : List Char → List Char) (name : String) :
    anchorBy lower name =
      anchorText (withoutEdgeDashes (collapseDashes (keptChars (lower (trim name.toList))))) := by
  rw [anchorBy, (anchorChars_eq_collapseDashes _).1, anchorText]
  split
  next hnone => rw [if_pos hnone]; rfl
  next hsome => rw [if_neg hsome]

/-- Blanks at the ends become dashes at the ends, which are stripped like the blanks. -/
theorem LowerCasing.strip_trim (h : LowerCasing lower) (cs : List Char) :
    withoutEdgeDashes (collapseDashes (keptChars (lower (trim cs)))) =
      withoutEdgeDashes (collapseDashes (keptChars (lower cs))) := by
  obtain ⟨front, back, hcs, hfront, hback, -, -⟩ := isTrimmed_trim cs
  generalize trim cs = t at hcs
  subst hcs
  rw [h.apart, h.apart, strip_collapse_back (h.kept_dashes hback),
    strip_collapse_front (h.kept_dashes hfront)]

/-- The anchor of a name stage by stage: lower case for the whole name, a dash for each underscore,
all other characters deleted that are neither blank nor in an anchor, a dash for each blank, one
dash for each run of dashes, no dashes at the ends, and a word for a name of which nothing is
left. -/
def stagedAnchor (lower : List Char → List Char) (name : String) : String :=
  let lowered := lower name.toList
  let joined := lowered.map fun c => if c = '_' then '-' else c
  let cleaned := joined.filter fun c => IsAnchorChar c ∨ isBlank c = true
  let dashed := cleaned.map fun c => if isBlank c then '-' else c
  let collapsed := collapseDashes dashed
  let stripped := (collapsed.dropWhile (· == '-')).rdropWhile (· == '-')
  if stripped = [] then "section" else String.ofList stripped

theorem stages_eq_keptChars (cs : List Char) :
    (((cs.map fun c => if c = '_' then '-' else c).filter fun c =>
      IsAnchorChar c ∨ isBlank c = true).map fun c => if isBlank c then '-' else c) =
        keptChars cs := by
  induction cs with
  | nil => rfl
  | cons c cs ih =>
    rw [List.map_cons]
    by_cases hjoin : c = '_'
    · have hkept : keptChars (c :: cs) = '-' :: keptChars cs := by
        rw [hjoin]
        rfl
      rw [if_pos hjoin, List.filter_cons_of_pos (by decide), List.map_cons, ih, hkept]
      rfl
    rw [if_neg hjoin]
    by_cases hblank : isBlank c = true
    · have hkept : keptChars (c :: cs) = '-' :: keptChars cs := by
        simp [keptChars, anchorChar?_of_isBlank hblank]
      rw [List.filter_cons_of_pos (by simp [hblank]), List.map_cons, ih, hkept, if_pos hblank]
    by_cases hchar : IsAnchorChar c
    · have hkept : keptChars (c :: cs) = c :: keptChars cs := by
        simp [keptChars, anchorChar?_of_isAnchorChar hchar]
      rw [List.filter_cons_of_pos (by simp [hchar]), List.map_cons, ih, hkept, if_neg hblank]
    · have hkept : keptChars (c :: cs) = keptChars cs := by
        simp [keptChars, anchorChar?_eq_none hchar hjoin (Bool.eq_false_iff.mpr hblank)]
      rw [List.filter_cons_of_neg (by simp [hchar, hblank]), ih, hkept]

theorem stagedAnchor_eq_anchorText (lower : List Char → List Char) (name : String) :
    stagedAnchor lower name =
      anchorText (withoutEdgeDashes (collapseDashes (keptChars (lower name.toList)))) := by
  unfold stagedAnchor
  dsimp only
  rw [stages_eq_keptChars]
  rfl

/-- Every lower case of which an anchor keeps what it keeps of the one in use gives the same
anchors. -/
theorem LowerCasing.anchorBy_eq_anchor (h : LowerCasing lower)
    (hsame : ∀ c, keptChars (lower [c]) = keptChars (lowerForAnchor c)) (name : String) :
    anchorBy lower name = anchor name := by
  rw [anchor_eq_anchorBy, anchorBy_eq_anchorText, anchorBy_eq_anchorText, h.keptChars_eq,
    lowerCasing_lowerForAnchor.keptChars_eq]
  simp only [hsame, List.flatMap_singleton]

theorem LowerCasing.anchorBy_eq_stagedAnchor (h : LowerCasing lower) (name : String) :
    anchorBy lower name = stagedAnchor lower name := by
  rw [anchorBy_eq_anchorText, h.strip_trim, stagedAnchor_eq_anchorText]

end LowerCase

/-- The anchor of a name is the one that the stages give, with the lower case in use and with every
other of which an anchor keeps the same. The pass gives what the stages give with any lower case. -/
theorem anchor_staged (name : String) :
    anchor name = stagedAnchor (fun cs => cs.flatMap lowerForAnchor) name ∧
    ∀ lower, LowerCasing lower → anchorBy lower name = stagedAnchor lower name ∧
      ((∀ c, keptChars (lower [c]) = keptChars (lowerForAnchor c)) →
        anchor name = stagedAnchor lower name) := by
  refine ⟨?_, fun lower h => ⟨h.anchorBy_eq_stagedAnchor name, fun hsame => ?_⟩⟩
  · rw [anchor_eq_anchorBy, lowerCasing_lowerForAnchor.anchorBy_eq_stagedAnchor]
  · rw [← h.anchorBy_eq_anchor hsame, h.anchorBy_eq_stagedAnchor]

/-- A mapping with a letter outside ASCII, dropped like its capital, and a name with the two
characters outside ASCII whose lower case leaves a letter in an anchor. -/
theorem anchor_staged_kelvin :
    let lower : List Char → List Char := fun cs =>
      cs.flatMap fun c => if c = 'É' then ['é'] else lowerForAnchor c
    let name := "  _\u212aelvin__ÉTÉ \u0130d!_\u00a0"
    LowerCasing lower ∧ (∀ c, keptChars (lower [c]) = keptChars (lowerForAnchor c)) ∧
      anchor name = stagedAnchor lower name ∧ anchor name = "kelvin-t-id" := by
  intro lower name
  have hlower : LowerCasing lower := by
    apply lowerCasing_flatMap
    intro c hc
    have hne : c ≠ 'É' := by
      rintro rfl
      revert hc
      decide
    rw [if_neg hne, lowerForAnchor_eq_self (.inl hc)]
  have hsame : ∀ c, keptChars (lower [c]) = keptChars (lowerForAnchor c) := by
    intro c
    by_cases hc : c = 'É'
    · subst hc
      decide
    · simp only [lower, List.flatMap_singleton, if_neg hc]
  exact ⟨hlower, hsame, ((anchor_staged name).2 lower hlower).2 hsame, by decide +kernel⟩

/-- A text that can stand as an anchor. -/
@[mk_iff] structure AnchorSafe (s : String) : Prop where
  nonempty : s ≠ ""
  chars : ∀ c ∈ s.toList, IsAnchorChar c
  head : s.toList.head? ≠ some '-'
  last : s.toList.getLast? ≠ some '-'
  single : ¬ ['-', '-'] <:+: s.toList

instance (s : String) : Decidable (AnchorSafe s) :=
  have : Decidable (∀ c ∈ s.toList, IsAnchorChar c) := List.decidableBAll _ _
  decidable_of_iff _ (anchorSafe_iff s).symm

theorem anchorSafe_anchorText (cs : List Char) :
    AnchorSafe (anchorText (withoutEdgeDashes (collapseDashes (keptChars cs)))) := by
  rw [anchorText]
  split
  next => decide +kernel
  next hsome =>
    have hpart := withoutEdgeDashes_isInfix (collapseDashes (keptChars cs))
    refine ⟨?_, ?_, ?_, ?_, ?_⟩
    · intro hempty
      exact hsome (String.ofList_injective hempty)
    · intro c hc
      rw [String.toList_ofList] at hc
      exact isAnchorChar_of_mem_keptChars
        ((collapseDashes_sublist _).subset (hpart.subset hc))
    · rw [String.toList_ofList]
      exact head?_withoutEdgeDashes _
    · rw [String.toList_ofList]
      exact getLast?_withoutEdgeDashes _
    · rw [String.toList_ofList]
      exact fun hdouble => collapseDashes_single _ (hdouble.trans hpart)

theorem AnchorSafe.anchorText_eq {s : String} (h : AnchorSafe s) :
    anchorText (withoutEdgeDashes (collapseDashes (keptChars s.toList))) = s := by
  rw [keptChars_eq_self h.chars, collapseDashes_eq_self h.single,
    withoutEdgeDashes_eq_self h.head h.last, anchorText, String.ofList_toList, if_neg]
  intro hempty
  exact h.nonempty (String.toList_eq_nil_iff.mp hempty)

theorem AnchorSafe.trim_eq {s : String} (h : AnchorSafe s) : trim s.toList = s.toList := by
  have hblank (c : Char) (hc : c ∈ s.toList) : isBlank c = false := (h.chars c hc).not_blank
  exact trim_eq_iff.mpr ⟨[], [], by simp, by simp, by simp,
    fun c hc => hblank c (List.mem_of_mem_head? hc),
    fun c hc => hblank c (List.mem_of_mem_getLast? hc)⟩

/-- `form` takes every text to a normal one, leaves exactly the normal ones alone, and gives all of
them. -/
structure NormalForms (form : String → String) (Normal : String → Prop) : Prop where
  normal : ∀ x, Normal (form x)
  eq_self_iff : ∀ x, form x = x ↔ Normal x
  idempotent : ∀ x, form (form x) = form x
  range : Set.range form = {x | Normal x}

theorem normalForms_of_eq_self {form : String → String} {Normal : String → Prop}
    (hnormal : ∀ x, Normal (form x)) (hself : ∀ x, Normal x → form x = x) :
    NormalForms form Normal where
  normal := hnormal
  eq_self_iff x := ⟨fun h => h ▸ hnormal x, hself x⟩
  idempotent x := hself _ (hnormal x)
  range := by
    ext x
    constructor
    · rintro ⟨y, rfl⟩
      exact hnormal y
    · intro hx
      exact ⟨x, hself x hx⟩

theorem anchorBy_normalForms {lower : List Char → List Char}
    (h : ∀ cs, (∀ c ∈ cs, IsAnchorChar c) → lower cs = cs) :
    NormalForms (anchorBy lower) AnchorSafe := by
  apply normalForms_of_eq_self
  · intro x
    rw [anchorBy_eq_anchorText]
    exact anchorSafe_anchorText _
  · intro x hx
    rw [anchorBy_eq_anchorText, hx.trim_eq, h x.toList hx.chars, hx.anchorText_eq]

/-- Anchors are normal forms: every anchor can stand as one, what can stand as an anchor is its own,
and so the anchor of an anchor is itself. The same holds of the pass with every lower case that
leaves the characters of anchors alone. -/
theorem anchor_normalForms :
    NormalForms anchor AnchorSafe ∧
    ∀ lower, (∀ cs, (∀ c ∈ cs, IsAnchorChar c) → lower cs = cs) →
      NormalForms (anchorBy lower) AnchorSafe := by
  refine ⟨?_, fun lower h => anchorBy_normalForms h⟩
  rw [anchor_eq_anchorBy]
  apply anchorBy_normalForms
  intro cs h
  calc cs.flatMap lowerForAnchor
    _ = cs.flatMap fun c => [c] :=
      List.flatMap_congr fun c hc => lowerForAnchor_eq_self (.inr (.inl (h c hc)))
    _ = cs := List.flatMap_singleton' cs

/-- Lower case for ASCII letters alone. -/
theorem anchor_normalForms_ascii :
    let lower : List Char → List Char := fun cs => cs.map Char.toLower
    (∀ cs, (∀ c ∈ cs, IsAnchorChar c) → lower cs = cs) ∧ NormalForms (anchorBy lower) AnchorSafe ∧
      anchorBy lower "My__func -2" = "my-func-2" ∧ AnchorSafe "my-func-2" := by
  intro lower
  have hlower : ∀ cs, (∀ c ∈ cs, IsAnchorChar c) → lower cs = cs := by
    intro cs h
    calc cs.map Char.toLower
      _ = cs.map id := List.map_congr_left fun c hc => toLower_eq_self (.inr (.inl (h c hc)))
      _ = cs := List.map_id cs
  exact ⟨hlower, anchor_normalForms.2 lower hlower, by decide +kernel, by decide +kernel⟩

end CMakeManual.Document
