import CMakeManual.Text.Blank
import CMakeManual.Text.Lines

/-! Line ends with and without a carriage return. A text and the same text with carriage returns
before some of its line ends have the same lines, and they are cut at the same places by anything
that looks at neither of the two characters. -/
namespace CMakeManual.Text

/-- Every line end of a text as carriage return and line feed. -/
def withReturns (cs : List Char) : List Char :=
  cs.flatMap fun c => if c = '\n' then ['\r', '\n'] else [c]

/-- The first text has no carriage return; the second has some, each before a line end of the
first. -/
inductive Returned : List Char → List Char → Prop where
  | nil : Returned [] []
  | same {c : Char} {cs ds : List Char} (hc : c ≠ '\r') (h : Returned cs ds) :
      Returned (c :: cs) (c :: ds)
  | returned {cs ds : List Char} (h : Returned cs ds) :
      Returned ('\n' :: cs) ('\r' :: '\n' :: ds)

theorem returned_withReturns {cs : List Char} (h : '\r' ∉ cs) : Returned cs (withReturns cs) := by
  induction cs with
  | nil => exact .nil
  | cons c cs ih =>
    simp only [List.mem_cons, not_or] at h
    have hrest := ih h.2
    by_cases hc : c = '\n'
    · subst hc
      exact .returned hrest
    · rw [withReturns, List.flatMap_cons, if_neg hc]
      exact .same (Ne.symm h.1) hrest

namespace Returned
variable {cs ds : List Char}

theorem of_nil (h : Returned [] ds) : ds = [] := by
  cases h
  rfl

/-- A character that is no line end stays where it is. -/
theorem of_cons {c : Char} (h : Returned (c :: cs) ds) (hc : c ≠ '\n') :
    ∃ rest, ds = c :: rest ∧ Returned cs rest := by
  cases h with
  | same _ h => exact ⟨_, rfl, h⟩
  | returned => exact absurd rfl hc

/-- A front part without line ends stays where it is. -/
theorem of_append {front : List Char} (hf : '\n' ∉ front) (h : Returned (front ++ cs) ds) :
    ∃ rest, ds = front ++ rest ∧ Returned cs rest := by
  induction front generalizing ds with
  | nil => exact ⟨ds, rfl, h⟩
  | cons c front ih =>
    simp only [List.mem_cons, not_or] at hf
    obtain ⟨tail, rfl, htail⟩ := of_cons h (Ne.symm hf.1)
    obtain ⟨rest, rfl, hrest⟩ := ih hf.2 htail
    exact ⟨rest, rfl, hrest⟩

theorem eq_of_not_mem (h : Returned cs ds) (hn : '\n' ∉ cs) : ds = cs := by
  rw [← List.append_nil cs] at h
  obtain ⟨rest, rfl, hrest⟩ := of_append hn h
  rw [of_nil hrest, List.append_nil]

theorem count_lineEnd (h : Returned cs ds) : ds.count '\n' = cs.count '\n' := by
  induction h with
  | nil => rfl
  | same _ _ ih => rw [List.count_cons, List.count_cons, ih]
  | returned _ ih => simp [ih]

theorem takeWhile {p : Char → Bool} (hn : p '\n' = false) (hr : p '\r' = false)
    (h : Returned cs ds) :
    ds.takeWhile p = cs.takeWhile p ∧ Returned (cs.dropWhile p) (ds.dropWhile p) := by
  induction h with
  | nil => exact ⟨rfl, .nil⟩
  | @same c cs ds hc h ih =>
    cases hp : p c with
    | false => simpa [hp] using Returned.same hc h
    | true => simpa [hp] using ih
  | returned h => simpa [hn, hr] using h.returned

/-- The rest of a line can gain the carriage return that stands at its end. -/
theorem takeLine (h : Returned cs ds) :
    (ds.takeWhile (· != '\n') = cs.takeWhile (· != '\n') ∨
      ds.takeWhile (· != '\n') = cs.takeWhile (· != '\n') ++ ['\r']) ∧
    Returned (cs.dropWhile (· != '\n')) (ds.dropWhile (· != '\n')) := by
  induction h with
  | nil => exact ⟨.inl rfl, .nil⟩
  | @same c cs ds hc h ih =>
    by_cases hn : c = '\n'
    · subst hn
      exact ⟨.inl (by simp), by simpa using Returned.same hc h⟩
    · simpa [hn] using ih
  | returned h => exact ⟨.inr (by simp), by simpa using Returned.same (by decide) h⟩

/-- A mark at the start of one text is at the start of the other. -/
theorem prefix_iff {mark : List Char} (hn : '\n' ∉ mark) (hr : '\r' ∉ mark)
    (h : Returned cs ds) : mark <+: cs ↔ mark <+: ds := by
  constructor
  · rintro ⟨rest, rfl⟩
    obtain ⟨rest', rfl, -⟩ := of_append hn h
    exact List.prefix_append mark rest'
  · intro hm
    induction h generalizing mark with
    | nil => exact hm
    | same _ _ ih =>
      rcases List.prefix_cons_iff.mp hm with rfl | ⟨tail, rfl, ht⟩
      · exact List.nil_prefix
      · simp only [List.mem_cons, not_or] at hn hr
        exact (List.prefix_cons_inj _).mpr (ih hn.2 hr.2 ht)
    | returned _ _ =>
      rcases List.prefix_cons_iff.mp hm with rfl | ⟨tail, rfl, -⟩
      · exact List.nil_prefix
      · exact absurd (List.mem_cons_self) hr

end Returned

theorem cutAfter_found {mark : List Char} (hm : mark ≠ []) (rest : List Char) :
    cutAfter mark (mark ++ rest) = some (mark, rest) := by
  obtain ⟨c, tail, rfl⟩ := List.exists_cons_of_ne_nil hm
  have hfound : (c :: tail).isPrefixOf (c :: (tail ++ rest)) = true :=
    List.isPrefixOf_iff_prefix.mpr (List.prefix_append (c :: tail) rest)
  rw [List.cons_append, cutAfter, if_pos hfound, ← List.cons_append, List.drop_left]

theorem cutAfter_skip {mark r : List Char} {c : Char} (h : ¬ mark <+: c :: r) :
    cutAfter mark (c :: r) = (cutAfter mark r).map fun cut => (c :: cut.1, cut.2) := by
  rw [cutAfter, if_neg]
  rwa [List.isPrefixOf_iff_prefix]

/-- Both texts are cut behind the same occurrence of a mark. -/
theorem Returned.cutAfter {mark cs ds front rest : List Char} (hm : mark ≠ [])
    (hn : '\n' ∉ mark) (hr : '\r' ∉ mark) (h : Returned cs ds)
    (hc : cutAfter mark cs = some (front, rest)) :
    ∃ body body' rest', front = body ++ mark ∧ Text.cutAfter mark ds = some (body' ++ mark, rest') ∧
      Returned body body' ∧ Returned rest rest' := by
  induction h generalizing front rest with
  | nil => simp [Text.cutAfter, hm] at hc
  | @same c cs ds hne h ih =>
    have hboth := (Returned.same hne h).prefix_iff hn hr
    by_cases hp : mark <+: c :: cs
    · obtain ⟨tail, ht⟩ := hp
      have hwhole : Returned (mark ++ tail) (c :: ds) := by
        rw [ht]
        exact .same hne h
      obtain ⟨tail', ht', hrest⟩ := hwhole.of_append hn
      rw [← ht, cutAfter_found hm] at hc
      obtain ⟨rfl, rfl⟩ := Prod.mk.inj (Option.some.inj hc)
      exact ⟨[], [], tail', rfl, by rw [ht', cutAfter_found hm]; rfl, .nil, hrest⟩
    · rw [cutAfter_skip hp] at hc
      obtain ⟨⟨u, v⟩, hcut, ⟨⟩⟩ := Option.map_eq_some_iff.mp hc
      obtain ⟨body, body', rest', rfl, hcut', hbody, hrest⟩ := ih hcut
      refine ⟨c :: body, c :: body', rest', rfl, ?_, .same hne hbody, hrest⟩
      rw [cutAfter_skip (mt hboth.mpr hp), hcut']
      rfl
  | @returned cs ds h ih =>
    have hskip {c : Char} (hc : c ∉ mark) (r : List Char) : ¬ mark <+: c :: r := by
      intro hp
      rcases List.prefix_cons_iff.mp hp with rfl | ⟨tail, rfl, -⟩
      · exact hm rfl
      · exact hc List.mem_cons_self
    rw [cutAfter_skip (hskip hn cs)] at hc
    obtain ⟨⟨u, v⟩, hcut, ⟨⟩⟩ := Option.map_eq_some_iff.mp hc
    obtain ⟨body, body', rest', rfl, hcut', hbody, hrest⟩ := ih hcut
    refine ⟨'\n' :: body, '\r' :: '\n' :: body', rest', rfl, ?_, .returned hbody, hrest⟩
    rw [cutAfter_skip (hskip hr _), cutAfter_skip (hskip hn ds), hcut']
    rfl

theorem lines_cons {c : Char} (hn : c ≠ '\n') (hr : c ≠ '\r') (r : List Char) :
    lines (c :: r) = (c :: (lines r).headD []) :: (lines r).tail := by
  rw [lines]
  · cases lines r <;> rfl
  · exact hn
  · rintro tail rfl
    exact absurd rfl hr

/-- Both texts have the same lines. -/
theorem Returned.lines_eq {cs ds : List Char} (h : Returned cs ds) : lines ds = lines cs := by
  induction h with
  | nil => rfl
  | @same c cs ds hc _ ih =>
    by_cases hn : c = '\n'
    · subst hn
      rw [lines, lines, ih]
    · rw [lines_cons hn hc, lines_cons hn hc, ih]
  | returned _ ih => rw [lines, lines, ih]

/-- A carriage return at the end is blank. -/
theorem trimEnd_return (cs : List Char) : trimEnd (cs ++ ['\r']) = trimEnd cs := by
  have hblank : isBlank '\r' = true := by decide
  rw [trimEnd, trimEnd, dropEndWhile, List.reverse_append]
  simp [dropEndWhile, hblank]

end CMakeManual.Text
