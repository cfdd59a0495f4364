import CMakeManual.Proofs.Document.AnchorClash

/-! Which anchor each name is given. The number of a repeated anchor counts the names with this
anchor up to the one that gets it, so names with other anchors do not change it. Two places get
the same anchor in one way only: a first use is spelled like a numbered later use of another
anchor. -/
namespace CMakeManual.Document
open Text

/-- The anchor of the `i`-th name as it stands. -/
def baseAt (names : List String) (i : Fin names.length) : String := anchor (names.get i)

/-- How many of the names up to the `i`-th have its anchor. -/
def useNumber (names : List String) (i : Fin names.length) : Nat :=
  ((names.take (i + 1)).map anchor).count (baseAt names i)

/-- The anchor that the `i`-th name is given. -/
def anchorAt (names : List String) (i : Fin names.length) : String :=
  (anchors names).get (i.cast (by simp [anchors]))

/-- The use of an anchor at a place counts the uses before the names and among them. -/
theorem usesAfter_getElem? (used names : List String) (i : Nat) :
    (usesAfter used names)[i]? = names[i]?.map fun name =>
      (anchor name,
        used.count (anchor name) + ((names.take (i + 1)).map anchor).count (anchor name)) := by
  induction names generalizing used i with
  | nil => simp [usesAfter]
  | cons name names ih =>
    cases i with
    | zero => simp [usesAfter]
    | succ i =>
      rw [usesAfter, List.getElem?_cons_succ, List.getElem?_cons_succ, ih]
      apply congrArg (Option.map · names[i]?)
      funext later
      rw [List.take_succ_cons, List.map_cons, List.count_cons, List.count_cons]
      apply congrArg (anchor later, ·)
      omega

theorem uses_getElem? (names : List String) (i : Fin names.length) :
    (usesAfter [] names)[i.val]? = some (baseAt names i, useNumber names i) := by
  rw [usesAfter_getElem?, List.getElem?_eq_getElem i.isLt, Option.map_some, List.count_nil,
    Nat.zero_add]
  rfl

theorem anchorAt_eq_numberedAnchor (names : List String) (i : Fin names.length) :
    anchorAt names i = numberedAnchor (baseAt names i) (useNumber names i) := by
  have hplace : (anchors names)[i.val]? = some (anchorAt names i) :=
    List.getElem?_eq_getElem (i.cast (by simp [anchors])).isLt
  have hnumbered : (anchors names)[i.val]? =
      some (numberedAnchor (baseAt names i) (useNumber names i)) := by
    rw [anchors, anchorsAfter_eq_map, List.getElem?_map, uses_getElem?, Option.map_some, numbered]
  exact Option.some.inj (hplace.symm.trans hnumbered)

theorem useNumber_pos (names : List String) (i : Fin names.length) : 1 ≤ useNumber names i :=
  (mem_uses.mp (List.mem_of_getElem? (uses_getElem? names i))).1

/-- A use of an anchor has one place. -/
theorem place_of_use {names : List String} {i j : Fin names.length}
    (hbase : baseAt names i = baseAt names j) (hnumber : useNumber names i = useNumber names j) :
    i = j := by
  have hi := uses_getElem? names i
  have hj := uses_getElem? names j
  rw [← hbase, ← hnumber] at hj
  obtain ⟨hlt, -⟩ := List.getElem?_eq_some_iff.mp hi
  exact Fin.ext ((List.getElem?_inj hlt (usesAfter_nodup [] names)).mp (hi.trans hj.symm))

/-- What names of one anchor are given is what they would be given without the others. -/
theorem anchorsAfter_filter {used kept : List String} {base : String}
    (h : used.count base = kept.count base) (names : List String) :
    ((names.zip (anchorsAfter used names)).filter fun e => anchor e.1 == base).map Prod.snd =
      anchorsAfter kept (names.filter fun name => anchor name == base) := by
  induction names generalizing used kept with
  | nil => rfl
  | cons name names ih =>
    rw [anchorsAfter, List.zip_cons_cons]
    by_cases hbase : anchor name = base
    · have hcount : (base :: used).count base = (base :: kept).count base := by
        rw [List.count_cons_self, List.count_cons_self, h]
      rw [List.filter_cons_of_pos (by simpa using hbase),
        List.filter_cons_of_pos (by simpa using hbase), List.map_cons, anchorsAfter, hbase,
        ih hcount, h]
    · have hcount : (anchor name :: used).count base = kept.count base := by
        rw [List.count_cons_of_ne hbase, h]
      rw [List.filter_cons_of_neg (by simpa using hbase),
        List.filter_cons_of_neg (by simpa using hbase), ih hcount]

/-- The `i`-th name is the first with its anchor, which is spelled like the numbered anchor that the
`j`-th name is given. -/
structure SpelledLike (names : List String) (i j : Fin names.length) : Prop where
  first : useNumber names i = 1
  later : 2 ≤ useNumber names j
  spelling : baseAt names i = baseAt names j ++ "-" ++ decimal (useNumber names j)

theorem numberedAnchor_of_two_le {k : Nat} (hk : 2 ≤ k) (base : String) :
    numberedAnchor base k = base ++ "-" ++ decimal k := by
  rw [numberedAnchor, if_neg (by omega)]

theorem SpelledLike.ne {names : List String} {i j : Fin names.length}
    (h : SpelledLike names i j) : i ≠ j := by
  rintro rfl
  have hlater := h.later
  rw [h.first] at hlater
  omega

theorem SpelledLike.anchorAt_eq {names : List String} {i j : Fin names.length}
    (h : SpelledLike names i j) : anchorAt names i = anchorAt names j := by
  rw [anchorAt_eq_numberedAnchor, anchorAt_eq_numberedAnchor, h.first, numberedAnchor_one,
    numberedAnchor_of_two_le h.later, h.spelling]

/-- Of two places with the same anchor one has its anchor as it stands and the other a number. -/
theorem spelledLike_of_anchorAt_eq {names : List String} {i j : Fin names.length} (hne : i ≠ j)
    (h : anchorAt names i = anchorAt names j) : SpelledLike names i j ∨ SpelledLike names j i := by
  rw [anchorAt_eq_numberedAnchor, anchorAt_eq_numberedAnchor] at h
  have hi := useNumber_pos names i
  have hj := useNumber_pos names j
  rcases Nat.lt_or_ge (useNumber names i) 2 with hfirst | hlater
  · have hone : useNumber names i = 1 := by omega
    rw [hone, numberedAnchor_one] at h
    rcases Nat.lt_or_ge (useNumber names j) 2 with hfirst' | hlater'
    · have hone' : useNumber names j = 1 := by omega
      rw [hone', numberedAnchor_one] at h
      exact absurd (place_of_use h (hone.trans hone'.symm)) hne
    · exact .inl ⟨hone, hlater', by rw [h, numberedAnchor_of_two_le hlater']⟩
  · rcases Nat.lt_or_ge (useNumber names j) 2 with hfirst' | hlater'
    · have hone' : useNumber names j = 1 := by omega
      rw [hone', numberedAnchor_one] at h
      exact .inr ⟨hone', hlater, by rw [← h, numberedAnchor_of_two_le hlater]⟩
    · obtain ⟨hbase, hnumber⟩ := numberedAnchor_inj hlater hlater' h
      exact absurd (place_of_use hbase hnumber) hne

/-- The first name with an anchor is given it as it stands and each later one with its number,
whatever other names stand between them; and two names are given the same anchor exactly if one of
them is the first with an anchor that is spelled like the numbered anchor of the other. -/
theorem anchors_numbered (names : List String) :
    (∀ i, anchorAt names i =
      if useNumber names i = 1 then baseAt names i
      else baseAt names i ++ "-" ++ decimal (useNumber names i)) ∧
    (∀ base, ((names.zip (anchors names)).filter fun e => anchor e.1 == base).map Prod.snd =
      anchors (names.filter fun name => anchor name == base)) ∧
    ∀ i j, (i ≠ j ∧ anchorAt names i = anchorAt names j) ↔
      SpelledLike names i j ∨ SpelledLike names j i := by
  refine ⟨?_, fun base => anchorsAfter_filter rfl names, ?_⟩
  · intro i
    have hpos := useNumber_pos names i
    rw [anchorAt_eq_numberedAnchor]
    split
    next hone => rw [hone, numberedAnchor_one]
    next hmore => exact numberedAnchor_of_two_le (by omega) _
  · intro i j
    constructor
    · rintro ⟨hne, heq⟩
      exact spelledLike_of_anchorAt_eq hne heq
    · rintro (h | h)
      · exact ⟨h.ne, h.anchorAt_eq⟩
      · exact ⟨h.ne.symm, h.anchorAt_eq.symm⟩

end CMakeManual.Document
