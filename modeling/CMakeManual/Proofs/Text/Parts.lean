import CMakeManual.Text.Blank
import CMakeManual.Text.Lines
import Mathlib.Data.List.DropRight

/-! What trimming and cutting leave of a text, said by how the text is put together from it. -/
namespace CMakeManual.Text

theorem pieces_eq_splitOn (separator : Char) (cs : List Char) :
    pieces separator cs = cs.splitOn separator := by
  induction cs with
  | nil => rfl
  | cons c cs ih =>
    have hsplit : (c :: cs).splitOn separator = if (c == separator) = true
        then [] :: cs.splitOn separator else (cs.splitOn separator).modifyHead (List.cons c) :=
      List.splitOnP_cons_eq_if_modifyHead c cs
    rw [hsplit, pieces, ih]
    by_cases hc : c = separator
    · simp [hc]
    · cases hs : cs.splitOn separator with
      | nil => exact absurd (ih.trans hs) (pieces_ne_nil separator cs)
      | cons p ps => simp [hc]

theorem not_mem_of_mem_pieces {separator : Char} {cs piece : List Char}
    (h : piece ∈ pieces separator cs) : separator ∉ piece := by
  induction cs generalizing piece with
  | nil =>
    obtain rfl := List.mem_singleton.mp h
    simp
  | cons c cs ih =>
    rw [pieces] at h
    split at h
    next =>
      rcases List.mem_cons.mp h with rfl | h
      · simp
      · exact ih h
    next hc =>
      split at h
      next hp => exact absurd hp (pieces_ne_nil separator cs)
      next p ps hp =>
        rcases List.mem_cons.mp h with rfl | h
        · have hp' : separator ∉ p := ih (by simp [hp])
          simpa [Ne.symm hc] using hp'
        · exact ih (by simp [hp, h])

/-- The pieces of a text are the only texts without the separator that joined by it give the
text. -/
theorem pieces_eq_iff {separator : Char} {cs : List Char} {ps : List (List Char)} :
    pieces separator cs = ps ↔
      ps ≠ [] ∧ (∀ p ∈ ps, separator ∉ p) ∧ [separator].intercalate ps = cs := by
  constructor
  · rintro rfl
    refine ⟨pieces_ne_nil separator cs, fun p hp => not_mem_of_mem_pieces hp, ?_⟩
    rw [pieces_eq_splitOn, List.intercalate_splitOn]
  · rintro ⟨hne, hseparator, rfl⟩
    rw [pieces_eq_splitOn, List.splitOn_intercalate separator hseparator hne]

theorem dropEndWhile_isPrefix {α : Type} (p : α → Bool) (xs : List α) : dropEndWhile p xs <+: xs :=
  List.rdropWhile_prefix p xs

theorem of_mem_getLast?_dropEndWhile {α : Type} {p : α → Bool} {xs : List α} {x : α}
    (h : x ∈ (dropEndWhile p xs).getLast?) : p x = false := by
  obtain ⟨ys, hys⟩ := List.getLast?_eq_some_iff.mp h
  have hlast := List.rdropWhile_last_not p xs
  rw [show xs.rdropWhile p = ys ++ [x] from hys] at hlast
  simpa using hlast (by simp)

theorem of_mem_head?_dropWhile {α : Type} {p : α → Bool} {xs : List α} {x : α}
    (h : x ∈ (xs.dropWhile p).head?) : p x = false := by
  have hhead := List.head?_dropWhile_not p xs
  rwa [h] at hhead

/-- `t` is what is left of `cs` without the blanks at its ends. -/
def IsTrimmed (cs t : List Char) : Prop :=
  ∃ front back, cs = front ++ t ++ back ∧ (∀ c ∈ front, isBlank c = true) ∧
    (∀ c ∈ back, isBlank c = true) ∧ (∀ c ∈ t.head?, isBlank c = false) ∧
    ∀ c ∈ t.getLast?, isBlank c = false

theorem isTrimmed_trim (cs : List Char) : IsTrimmed cs (trim cs) := by
  refine ⟨cs.takeWhile isBlank, ((trimStart cs).reverse.takeWhile isBlank).reverse, ?_, ?_, ?_, ?_,
    fun c hc => of_mem_getLast?_dropEndWhile hc⟩
  · rw [List.append_assoc, trim, trimEnd, dropEndWhile_append]
    exact List.takeWhile_append_dropWhile.symm
  · intro c hc
    exact List.all_eq_true.mp List.all_takeWhile c hc
  · intro c hc
    exact List.all_eq_true.mp List.all_takeWhile c (List.mem_reverse.mp hc)
  · intro c hc
    obtain ⟨r, hr⟩ := List.head?_eq_some_iff.mp hc
    -- What is kept is a front part of what trimming the start has left.
    obtain ⟨back, hback⟩ := dropEndWhile_isPrefix isBlank (trimStart cs)
    have hhead : c ∈ (trimStart cs).head? := by
      rw [← hback, show dropEndWhile isBlank (trimStart cs) = c :: r from hr]
      rfl
    exact of_mem_head?_dropWhile hhead

theorem mem_of_mem_trim {cs : List Char} {c : Char} (h : c ∈ trim cs) : c ∈ cs := by
  obtain ⟨front, back, hcs, -⟩ := isTrimmed_trim cs
  rw [hcs]
  simp [h]

theorem trim_append {front t back : List Char} (hfront : ∀ c ∈ front, isBlank c = true)
    (hback : ∀ c ∈ back, isBlank c = true) (hhead : ∀ c ∈ t.head?, isBlank c = false)
    (hlast : ∀ c ∈ t.getLast?, isBlank c = false) : trim (front ++ t ++ back) = t := by
  have hend : (t.reverse).dropWhile isBlank = t.reverse := by
    cases hr : t.reverse with
    | nil => rfl
    | cons c r =>
      have hc : isBlank c = false := hlast c (by rw [← List.head?_reverse, hr]; rfl)
      simp [hc]
  have hkept : trimEnd (t ++ back) = t := by
    rw [trimEnd, dropEndWhile, List.reverse_append, List.dropWhile_append_of_pos, hend,
      List.reverse_reverse]
    simpa using hback
  have hstart : trimStart (front ++ t ++ back) = trimStart (t ++ back) := by
    rw [trimStart, List.append_assoc, List.dropWhile_append_of_pos hfront]
    rfl
  rw [trim, hstart]
  cases t with
  | nil =>
    have hnone : trimStart back = [] := List.dropWhile_eq_nil_iff.mpr hback
    rw [List.nil_append, hnone]
    rfl
  | cons c r =>
    have hc : isBlank c = false := hhead c rfl
    have hstays : trimStart (c :: r ++ back) = c :: r ++ back := by
      simp [trimStart, hc]
    rw [hstays, hkept]

theorem trim_eq_iff {cs t : List Char} : trim cs = t ↔ IsTrimmed cs t := by
  constructor
  · rintro rfl
    exact isTrimmed_trim cs
  · rintro ⟨front, back, rfl, hfront, hback, hhead, hlast⟩
    exact trim_append hfront hback hhead hlast

/-- Nothing is dropped from an end that does not satisfy `p`. -/
theorem dropEndWhile_eq_self {α : Type} {p : α → Bool} {xs : List α}
    (h : ∀ x ∈ xs.getLast?, p x = false) : dropEndWhile p xs = xs := by
  apply List.rdropWhile_eq_self_iff.mpr
  intro hne
  rw [h _ (List.getLast?_eq_some_getLast hne)]
  exact Bool.false_ne_true

/-- A line is cut off at its end, with the characters in it that are no line end. -/
theorem lines_append_end {line : List Char} (hn : '\n' ∉ line) (hr : line.getLast? ≠ some '\r')
    (rest : List Char) : lines (line ++ '\n' :: rest) = line :: lines rest := by
  induction line with
  | nil => rfl
  | cons c line ih =>
    have hc : c ≠ '\n' := fun he => hn (by simp [he])
    have hline : lines (line ++ '\n' :: rest) = line :: lines rest := by
      apply ih (fun hm => hn (by simp [hm]))
      cases line with
      | nil => simp
      | cons d line => simpa using hr
    rw [List.cons_append, lines, hline]
    · exact hc
    · -- A carriage return is not the last character, so no line end follows it.
      rintro tail rfl htail
      cases line with
      | nil => simp at hr
      | cons d line =>
        obtain ⟨rfl, -⟩ := List.cons.inj htail
        simp at hn

theorem lines_flatMap_end {ls : List (List Char)} (hn : ∀ l ∈ ls, '\n' ∉ l)
    (hr : ∀ l ∈ ls, l.getLast? ≠ some '\r') : lines (ls.flatMap (· ++ ['\n'])) = ls := by
  induction ls with
  | nil => rfl
  | cons l ls ih =>
    rw [List.flatMap_cons, List.append_assoc, List.singleton_append,
      lines_append_end (hn l (by simp)) (hr l (by simp)),
      ih (fun m hm => hn m (by simp [hm])) (fun m hm => hr m (by simp [hm]))]

theorem count_flatMap_end {ls : List (List Char)} (hn : ∀ l ∈ ls, '\n' ∉ l) :
    (ls.flatMap (· ++ ['\n'])).count '\n' = ls.length := by
  induction ls with
  | nil => rfl
  | cons l ls ih =>
    rw [List.flatMap_cons, List.count_append, List.count_append, List.count_singleton_self,
      List.count_eq_zero.mpr (hn l (by simp)), ih fun m hm => hn m (by simp [hm]),
      List.length_cons]
    omega

theorem getLast?_flatMap_end {ls : List (List Char)} (h : ls ≠ []) :
    (ls.flatMap (· ++ ['\n'])).getLast? = some '\n' := by
  rw [← List.dropLast_append_getLast h]
  simp

/-- A mark without a line end occurs in lines only if it occurs in one of them. -/
theorem infix_of_flatMap_end {mark : List Char} (hne : mark ≠ []) (hn : '\n' ∉ mark)
    {ls : List (List Char)} (h : mark <:+: ls.flatMap (· ++ ['\n'])) : ∃ l ∈ ls, mark <:+: l := by
  induction ls with
  | nil => exact absurd (List.infix_nil.mp h) hne
  | cons l ls ih =>
    rw [List.flatMap_cons, List.append_assoc] at h
    rcases List.infix_append_iff.mp h with hl | hrest | ⟨u, v, rfl, hu, hv⟩
    · exact ⟨l, by simp, hl⟩
    · rcases List.infix_cons_iff.mp hrest with hfirst | hlater
      · obtain ⟨c, mark, rfl⟩ := List.exists_cons_of_ne_nil hne
        rw [(List.cons_prefix_cons.mp hfirst).1] at hn
        simp at hn
      · obtain ⟨m, hm, hmark⟩ := ih hlater
        exact ⟨m, by simp [hm], hmark⟩
    · -- What reaches over the end of the line would start with it there.
      cases v with
      | nil =>
        rw [List.append_nil]
        exact ⟨l, by simp, hu.isInfix⟩
      | cons c v =>
        rw [(List.cons_prefix_cons.mp hv).1] at hn
        simp at hn

end CMakeManual.Text
