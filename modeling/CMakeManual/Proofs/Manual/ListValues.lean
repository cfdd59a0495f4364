import CMakeManual.Manual.Keyword
import CMakeManual.Proofs.Text.Parts
import Mathlib.Data.List.Forall2

/-! How the texts of arguments are taken, said by how they are put together: quotes around a text, a
reference to a variable, and the elements of a list. -/
namespace CMakeManual.Manual
open Text Script Vocabulary

def IsQuote (c : Char) : Prop := c = '\x22' ∨ c = '\x27'

/-- `t` is `cs` without the two equal quotes around it, or `cs` itself if there are none. -/
def IsUnquoted (cs t : List Char) : Prop :=
  (∃ q, IsQuote q ∧ cs = q :: t ++ [q]) ∨ (t = cs ∧ ∀ q u, IsQuote q → cs ≠ q :: u ++ [q])

theorem unquoteOnce_quoted {q : Char} (hq : IsQuote q) (t : List Char) :
    unquoteOnce (q :: t ++ [q]) = t := by
  rcases hq with rfl | rfl <;> simp [unquoteOnce]

theorem isUnquoted_unquoteOnce (cs : List Char) : IsUnquoted cs (unquoteOnce cs) := by
  by_cases h : ∃ q u, IsQuote q ∧ cs = q :: u ++ [q]
  · obtain ⟨q, u, hq, rfl⟩ := h
    rw [unquoteOnce_quoted hq]
    exact .inl ⟨q, hq, rfl⟩
  · have hbare : ∀ q u, IsQuote q → cs ≠ q :: u ++ [q] := by
      intro q u hq hcs
      exact h ⟨q, u, hq, hcs⟩
    refine .inr ⟨?_, hbare⟩
    cases cs with
    | nil => rfl
    | cons c r =>
      rw [unquoteOnce, if_neg]
      intro hquoted
      simp only [Bool.and_eq_true, Bool.or_eq_true, beq_iff_eq] at hquoted
      obtain ⟨u, rfl⟩ := List.getLast?_eq_some_iff.mp hquoted.2
      exact hbare c u hquoted.1 rfl

theorem unquoteOnce_eq_iff {cs t : List Char} : unquoteOnce cs = t ↔ IsUnquoted cs t := by
  constructor
  · rintro rfl
    exact isUnquoted_unquoteOnce cs
  · rintro (⟨q, hq, rfl⟩ | ⟨rfl, hbare⟩)
    · exact unquoteOnce_quoted hq t
    · rcases isUnquoted_unquoteOnce t with ⟨q, hq, hquoted⟩ | ⟨hsame, -⟩
      · exact absurd hquoted (hbare q _ hq)
      · exact hsame

theorem unquote_eq_iff {s t : String} : unquote s = t ↔ IsUnquoted s.toList t.toList := by
  rw [← unquoteOnce_eq_iff, unquote, ← String.toList_inj, String.toList_ofList]

/-- A text that stands for the empty list. -/
def IsEmptyLiteral (cs : List Char) : Prop :=
  cs = [] ∨ cs = ['\x22', '\x22'] ∨ cs = ['\x27', '\x27']

/-- The text is a reference to the variable and nothing else. -/
def IsReference (cs : List Char) (name : String) : Prop :=
  cs = '$' :: '\x7b' :: name.toList ++ ['\x7d'] ∧ name ≠ "" ∧ '\x7d' ∉ name.toList

theorem referenceName?_eq_some_iff {cs : List Char} {name : String} :
    referenceName? cs = some name.toList ↔ IsReference cs name := by
  unfold IsReference
  constructor
  · intro h
    unfold referenceName? at h
    split at h
    next r =>
      split at h
      next hr =>
        simp only [Bool.and_eq_true, beq_iff_eq, Bool.not_eq_true', List.isEmpty_eq_false_iff,
          List.contains_eq_mem, decide_eq_false_iff_not] at hr
        obtain ⟨⟨hlast, hne⟩, hmem⟩ := hr
        rw [Option.some.inj h] at hne hmem
        obtain ⟨u, rfl⟩ := List.getLast?_eq_some_iff.mp hlast
        rw [List.dropLast_concat, Option.some.injEq] at h
        exact ⟨by rw [h]; rfl, by simpa using hne, hmem⟩
      next => simp at h
    next => simp at h
  · rintro ⟨rfl, hne, hmem⟩
    simp [referenceName?, hne, hmem]

theorem referenceName?_eq_none_iff {cs : List Char} :
    referenceName? cs = none ↔ ∀ name, ¬ IsReference cs name := by
  rw [Option.eq_none_iff_forall_ne_some]
  constructor
  · intro h name hreference
    exact h name.toList (referenceName?_eq_some_iff.mpr hreference)
  · intro h name hname
    rw [← String.toList_ofList (l := name)] at hname
    exact h _ (referenceName?_eq_some_iff.mp hname)

theorem IsReference.not_isEmptyLiteral {cs : List Char} {name : String} (h : IsReference cs name) :
    ¬ IsEmptyLiteral cs := by
  simp [IsEmptyLiteral, h.1]

/-- The elements of a list text: what stands between semicolons, where that is not empty. -/
def IsElements (cs : List Char) (elements : List String) : Prop :=
  ∃ ps : List (List Char), ps ≠ [] ∧ (∀ p ∈ ps, ';' ∉ p) ∧ [';'].intercalate ps = cs ∧
    elements = (ps.filter (· ≠ [])).map String.ofList

theorem isElements_iff {cs : List Char} {elements : List String} :
    IsElements cs elements ↔ (listParts cs).map String.ofList = elements := by
  have hparts : listParts cs = (pieces ';' cs).filter (· ≠ []) := by
    unfold listParts
    congr 1
    funext p
    cases p <;> rfl
  rw [hparts]
  constructor
  · rintro ⟨ps, hne, hmem, hcs, rfl⟩
    rw [pieces_eq_iff.mpr ⟨hne, hmem, hcs⟩]
  · rintro rfl
    obtain ⟨hne, hmem, hcs⟩ := pieces_eq_iff.mp (Eq.refl (pieces ';' cs))
    exact ⟨pieces ';' cs, hne, hmem, hcs, rfl⟩

/-- The list that values stand for: the elements of each, its quotes removed once. -/
def IsValue (values : List Argument) (elements : List String) : Prop :=
  ∃ parts, List.Forall₂ (fun (v : Argument) es => ∃ t, IsUnquoted v.text.toList t ∧ IsElements t es)
    values parts ∧ elements = parts.flatten

theorem isValue_iff {values : List Argument} {elements : List String} :
    IsValue values elements ↔ (values.flatMap fun v => listElements v.text) = elements := by
  have hpart (v : Argument) (es : List String) :
      (∃ t, IsUnquoted v.text.toList t ∧ IsElements t es) ↔ listElements v.text = es := by
    simp only [← unquoteOnce_eq_iff, isElements_iff, exists_eq_left', listElements]
  have hparts (parts : List (List String)) :
      List.Forall₂ (fun (v : Argument) es => listElements v.text = es) values parts ↔
        values.map (fun v => listElements v.text) = parts := by
    rw [← List.forall₂_map_left_iff (f := fun v : Argument => listElements v.text),
      List.forall₂_eq_eq_eq]
  unfold IsValue
  simp only [hpart, hparts, exists_eq_left', List.flatMap_def]
  exact eq_comm

end CMakeManual.Manual
