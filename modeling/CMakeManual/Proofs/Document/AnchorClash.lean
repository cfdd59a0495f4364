import CMakeManual.Document.Markdown
import Mathlib.Data.List.Count
import Mathlib.Data.List.Nodup

/-! When the anchors of a page differ. A repeated anchor is numbered without a look at the other
names, so a numbered anchor can meet the anchor of a name that is spelled like it. Nothing else
makes two anchors equal. -/
namespace CMakeManual.Document
open Text Manual Vocabulary

/-- The anchor of each name and which use of it that is, counted from one, behind names with the
anchors `used`. -/
def usesAfter (used : List String) : List String → List (String × Nat)
  | [] => []
  | name :: names =>
      (anchor name, used.count (anchor name) + 1) :: usesAfter (anchor name :: used) names

/-- The anchor that a use is given. -/
def numbered (use : String × Nat) : String := numberedAnchor use.1 use.2

theorem anchorsAfter_eq_map (used names : List String) :
    anchorsAfter used names = (usesAfter used names).map numbered := by
  induction names generalizing used with
  | nil => rfl
  | cons name names ih =>
    rw [anchorsAfter, usesAfter, List.map_cons, ih]
    rfl

/-- An anchor has as many uses as names have it. -/
theorem mem_usesAfter {used names : List String} {base : String} {k : Nat} :
    (base, k) ∈ usesAfter used names ↔
      used.count base < k ∧ k ≤ used.count base + (names.map anchor).count base := by
  induction names generalizing used with
  | nil =>
    simp [usesAfter]
  | cons name names ih =>
    rw [usesAfter, List.mem_cons, ih, List.map_cons]
    by_cases hb : anchor name = base
    · subst hb
      simp only [List.count_cons_self, Prod.mk.injEq, true_and]
      omega
    · have hne : base ≠ anchor name := fun h => hb h.symm
      simp [List.count_cons_of_ne hb, hne]

/-- No use is counted twice. -/
theorem usesAfter_nodup (used names : List String) : (usesAfter used names).Nodup := by
  induction names generalizing used with
  | nil => simp [usesAfter]
  | cons name names ih =>
    rw [usesAfter, List.nodup_cons]
    refine ⟨?_, ih _⟩
    rw [mem_usesAfter, List.count_cons_self]
    omega

theorem dash_not_mem_toDigits (k : Nat) : '-' ∉ Nat.toDigits 10 k := by
  intro h
  have := Nat.isDigit_of_mem_toDigits (by decide) (by decide) h
  revert this
  decide

theorem toDigits_injective {j k : Nat} (h : Nat.toDigits 10 j = Nat.toDigits 10 k) : j = k := by
  have hvalue := congrArg (fun digits => Nat.ofDigitChars 10 digits 0) h
  simpa using hvalue

/-- What stands before and behind the last dash is determined by the whole. -/
theorem append_dash_inj {xs ys ds es : List Char} (hd : '-' ∉ ds) (he : '-' ∉ es)
    (h : xs ++ '-' :: ds = ys ++ '-' :: es) : xs = ys ∧ ds = es := by
  rcases List.append_eq_append_iff.mp h with ⟨zs, rfl, hz⟩ | ⟨zs, rfl, hz⟩
  · cases zs with
    | nil => simpa using hz
    | cons z zs =>
      obtain ⟨-, rfl⟩ := List.cons.inj hz
      exact absurd (by simp) hd
  · cases zs with
    | nil => simpa [eq_comm] using hz
    | cons z zs =>
      obtain ⟨-, rfl⟩ := List.cons.inj hz
      exact absurd (by simp) he

theorem numberedAnchor_one (base : String) : numberedAnchor base 1 = base := rfl

theorem numberedAnchor_toList {k : Nat} (hk : 2 ≤ k) (base : String) :
    (numberedAnchor base k).toList = base.toList ++ '-' :: Nat.toDigits 10 k := by
  rw [numberedAnchor, if_neg (by omega)]
  simp [decimal]

/-- Two numbered anchors are equal only if they are the same use. -/
theorem numberedAnchor_inj {b c : String} {j k : Nat} (hj : 2 ≤ j) (hk : 2 ≤ k)
    (h : numberedAnchor b j = numberedAnchor c k) : b = c ∧ j = k := by
  have hchars := congrArg String.toList h
  rw [numberedAnchor_toList hj, numberedAnchor_toList hk] at hchars
  obtain ⟨hbase, hdigits⟩ :=
    append_dash_inj (dash_not_mem_toDigits j) (dash_not_mem_toDigits k) hchars
  exact ⟨String.toList_inj.mp hbase, toDigits_injective hdigits⟩

/-- No numbered anchor is the anchor of one of the names as it stands. -/
def NumbersApart (names : List String) : Prop :=
  ∀ base k, 2 ≤ k → k ≤ (names.map anchor).count base → numberedAnchor base k ∉ names.map anchor

theorem mem_uses {names : List String} {base : String} {k : Nat} :
    (base, k) ∈ usesAfter [] names ↔ 1 ≤ k ∧ k ≤ (names.map anchor).count base := by
  rw [mem_usesAfter, List.count_nil, Nat.zero_add]
  exact Iff.rfl

/-- Without a clash different uses are given different anchors. -/
theorem NumbersApart.numbered_inj {names : List String} (h : NumbersApart names)
    {u v : String × Nat} (hu : u ∈ usesAfter [] names) (hv : v ∈ usesAfter [] names)
    (he : numbered u = numbered v) : u = v := by
  obtain ⟨b, j⟩ := u
  obtain ⟨c, k⟩ := v
  rw [mem_uses] at hu hv
  have unnumbered {d : String} (hd : 1 ≤ (names.map anchor).count d) : d ∈ names.map anchor :=
    List.count_pos_iff.mp hd
  -- A first use meets a later one only in a clash.
  rcases Nat.lt_or_ge j 2 with hj | hj
  · obtain rfl : j = 1 := by omega
    rcases Nat.lt_or_ge k 2 with hk | hk
    · obtain rfl : k = 1 := by omega
      exact congrArg (·, 1) he
    · rw [numbered, numbered, numberedAnchor_one] at he
      exact absurd (he ▸ unnumbered hu.2) (h c k hk hv.2)
  · rcases Nat.lt_or_ge k 2 with hk | hk
    · obtain rfl : k = 1 := by omega
      rw [numbered, numbered, numberedAnchor_one] at he
      exact absurd (he ▸ unnumbered hv.2) (h b j hj hu.2)
    · obtain ⟨rfl, rfl⟩ := numberedAnchor_inj hj hk he
      rfl

/-- The anchors of names differ exactly if no numbered one is spelled like the anchor of a name. -/
theorem anchors_nodup (names : List String) : (anchors names).Nodup ↔ NumbersApart names := by
  rw [anchors, anchorsAfter_eq_map, List.nodup_map_iff_inj_on (usesAfter_nodup [] names)]
  constructor
  · intro h base k hk hcount hmem
    have hlater : (base, k) ∈ usesAfter [] names := mem_uses.mpr ⟨by omega, hcount⟩
    have hfirst : (numberedAnchor base k, 1) ∈ usesAfter [] names :=
      mem_uses.mpr ⟨Nat.le_refl 1, List.count_pos_iff.mpr hmem⟩
    have he := h _ hlater _ hfirst rfl
    have hone : k = 1 := congrArg Prod.snd he
    omega
  · intro h u hu v hv he
    exact h.numbered_inj hu hv he

/-- The lines of a page in front of its sections: the title and the index. -/
def pageFront (style : Style) (file : String) (callables : List Callable) : List String :=
  let entries := anchored style callables
  paragraph ("# " ++ style.title) ++ paragraph ("Generated from `" ++ file ++ "`.") ++
    if entries.isEmpty then paragraph "> No functions or macros found."
    else paragraph "## Index" ++ entries.map (fun e => indexLine file e.1 e.2) ++ [""]

/-- The sections of a page, in order. -/
def pageSections (style : Style) (callables : List Callable) : List (List String) :=
  (anchored style callables).map fun e => sectionLines style e.1 e.2

/-- The anchors that the index of a page links to, in order. -/
def linkTargets (style : Style) (callables : List Callable) : List String :=
  (anchored style callables).map Prod.snd

/-- The line that a link to `slug` leads to. -/
def anchorLine (slug : String) : String := "<a id=\x22" ++ slug ++ "\x22></a>"

/-- The names that a page shows. -/
def shownNames (style : Style) (callables : List Callable) : List String :=
  (style.shown callables).map Callable.name

theorem markdown_eq_pageText (style : Style) (file : String) (callables : List Callable) :
    markdown style file callables =
      pageText (pageFront style file callables ++ (pageSections style callables).flatten) := by
  rw [markdown, pageFront, pageSections]
  cases anchored style callables <;> simp [List.flatMap]

theorem linkTargets_eq_anchors (style : Style) (callables : List Callable) :
    linkTargets style callables = anchors (shownNames style callables) := by
  rw [linkTargets, anchored]
  apply List.map_snd_zip
  simp [anchors]

theorem anchorLine_injective : Function.Injective anchorLine := by
  intro s t h
  simpa [anchorLine] using h

/-- Every section starts with its anchor. -/
theorem pageSections_heads (style : Style) (callables : List Callable) :
    (pageSections style callables).map List.head? =
      (linkTargets style callables).map fun slug => some (anchorLine slug) := by
  rw [pageSections, linkTargets, List.map_map, List.map_map]
  rfl

/-- Exactly if no numbered anchor is spelled like the anchor of a name, the anchors of names
differ; and exactly if that holds of the names that a page shows, its sections have different
anchors, and each link of its index leads to one section. -/
theorem anchors_apart_iff (names : List String) (style : Style) (file : String)
    (callables : List Callable) :
    ((anchors names).Nodup ↔ NumbersApart names) ∧
    markdown style file callables =
      pageText (pageFront style file callables ++ (pageSections style callables).flatten) ∧
    (((pageSections style callables).map List.head?).Nodup ↔
      NumbersApart (shownNames style callables)) ∧
    ((∀ slug ∈ linkTargets style callables,
        ((pageSections style callables).map List.head?).count (some (anchorLine slug)) = 1) ↔
      NumbersApart (shownNames style callables)) := by
  have hinj : Function.Injective fun slug => some (anchorLine slug) :=
    fun _ _ h => anchorLine_injective (Option.some.inj h)
  refine ⟨anchors_nodup names, markdown_eq_pageText style file callables, ?_, ?_⟩
  · rw [pageSections_heads, List.nodup_map_iff hinj, linkTargets_eq_anchors, anchors_nodup]
  · rw [← anchors_nodup, ← linkTargets_eq_anchors, List.nodup_iff_count_eq_one,
      pageSections_heads]
    simp only [List.count_map_of_injective _ _ hinj]

/-- The third name has the anchor that the second use of the first one is numbered with. -/
theorem anchors_clash :
    anchors ["foo", "foo", "foo-2"] = ["foo", "foo-2", "foo-2"] ∧
      ¬ (anchors ["foo", "foo", "foo-2"]).Nodup := by
  decide +kernel

end CMakeManual.Document
