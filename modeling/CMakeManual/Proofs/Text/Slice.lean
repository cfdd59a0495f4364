import CMakeManual.Text.Lines

/-! Slices with their conditions. A slice of a text is taken between two byte offsets, in order and
inside the text, that both fall between characters; a slice of a list between two indices, in order
and inside the list. Anything else has no answer. -/
namespace CMakeManual.Text

/-- The text in front of a byte offset and the text behind it. -/
def cutAt? : Nat → List Char → Option (List Char × List Char)
  | 0, cs => some ([], cs)
  | _ + 1, [] => none
  | n + 1, c :: cs =>
      if c.utf8Size ≤ n + 1 then
        (cutAt? (n + 1 - c.utf8Size) cs).map fun cut => (c :: cut.1, cut.2)
      else none

/-- The text between two byte offsets. -/
def slice? (cs : List Char) (start stop : Nat) : Option (List Char) :=
  if start ≤ stop then
    (cutAt? start cs).bind fun cut => (cutAt? (stop - start) cut.2).map Prod.fst
  else none

/-- The text behind a byte offset. -/
def sliceFrom? (cs : List Char) (start : Nat) : Option (List Char) := (cutAt? start cs).map Prod.snd

/-- The elements between two indices. -/
def elements? {α : Type} (xs : List α) (start stop : Nat) : Option (List α) :=
  if start ≤ stop ∧ stop ≤ xs.length then some ((xs.take stop).drop start) else none

/-- The byte offset of the first occurrence of `mark`. -/
def findOffset? (mark : List Char) : List Char → Option Nat
  | [] => if mark = [] then some 0 else none
  | c :: r =>
      if mark.isPrefixOf (c :: r) then some 0
      else (findOffset? mark r).map (c.utf8Size + ·)

/-- The index of the last element that satisfies `p`. -/
def lastIndex? {α : Type} (p : α → Bool) (xs : List α) : Option Nat :=
  (xs.reverse.findIdx? p).map fun i => xs.length - 1 - i

theorem cutAt?_eq_some_iff {n : Nat} {cs front rest : List Char} :
    cutAt? n cs = some (front, rest) ↔ cs = front ++ rest ∧ n = byteLength front := by
  fun_induction cutAt? n cs generalizing front with
  | case1 cs =>
    constructor
    · intro h
      simp only [Option.some.injEq, Prod.mk.injEq] at h
      simp [← h.1, ← h.2]
    · rintro ⟨rfl, h⟩
      cases front with
      | nil => rfl
      | cons c front =>
        have := c.utf8Size_pos
        rw [byteLength_cons] at h
        omega
  | case2 n =>
    constructor
    · intro h
      simp at h
    · rintro ⟨h, hn⟩
      obtain ⟨rfl, -⟩ := List.append_eq_nil_iff.mp h.symm
      simp at hn
  | case3 n c cs hle ih =>
    constructor
    · intro h
      obtain ⟨⟨a, b⟩, hcut, he⟩ := Option.map_eq_some_iff.mp h
      simp only [Prod.mk.injEq] at he
      obtain ⟨rfl, rfl⟩ := he
      obtain ⟨rfl, hn⟩ := ih.mp hcut
      exact ⟨rfl, by rw [byteLength_cons]; omega⟩
    · rintro ⟨h, hn⟩
      cases front with
      | nil => simp at hn
      | cons d front =>
        simp only [List.cons_append, List.cons.injEq] at h
        obtain ⟨rfl, rfl⟩ := h
        rw [byteLength_cons] at hn
        rw [ih.mpr ⟨rfl, by omega⟩, Option.map_some]
  | case4 n c cs hle =>
    constructor
    · intro h
      simp at h
    · rintro ⟨h, hn⟩
      cases front with
      | nil => simp at hn
      | cons d front =>
        simp only [List.cons_append, List.cons.injEq] at h
        obtain ⟨rfl, -⟩ := h
        rw [byteLength_cons] at hn
        omega

/-- A slice is a part of the text, and its offsets are the ends of that part. -/
theorem slice?_eq_some_iff {cs text : List Char} {start stop : Nat} :
    slice? cs start stop = some text ↔
      ∃ before after, cs = before ++ text ++ after ∧ start = byteLength before ∧
        stop = byteLength (before ++ text) := by
  unfold slice?
  constructor
  · intro h
    split at h
    next hle =>
      obtain ⟨⟨before, rest⟩, hstart, hstop⟩ := Option.bind_eq_some_iff.mp h
      obtain ⟨⟨front, after⟩, hcut, he⟩ := Option.map_eq_some_iff.mp hstop
      obtain rfl : front = text := he
      obtain ⟨rfl, hn⟩ := cutAt?_eq_some_iff.mp hstart
      obtain ⟨rfl, hm⟩ := cutAt?_eq_some_iff.mp hcut
      exact ⟨before, after, by simp, hn, by rw [byteLength_append]; omega⟩
    next => simp at h
  · rintro ⟨before, after, rfl, rfl, rfl⟩
    have hstart := cutAt?_eq_some_iff.mpr
      ⟨List.append_assoc before text after, rfl⟩
    have hstop : cutAt? (byteLength (before ++ text) - byteLength before) (text ++ after) =
        some (text, after) :=
      cutAt?_eq_some_iff.mpr ⟨rfl, by rw [byteLength_append]; omega⟩
    rw [if_pos (by rw [byteLength_append]; omega), hstart, Option.bind_some, hstop, Option.map_some]

theorem sliceFrom?_append (front rest : List Char) :
    sliceFrom? (front ++ rest) (byteLength front) = some rest := by
  rw [sliceFrom?, cutAt?_eq_some_iff.mpr ⟨rfl, rfl⟩, Option.map_some]

theorem elements?_eq_some {α : Type} {xs : List α} {start stop : Nat} (h : start ≤ stop)
    (hs : stop ≤ xs.length) : elements? xs start stop = some ((xs.take stop).drop start) :=
  if_pos ⟨h, hs⟩

/-- A search by offsets agrees with a cut behind the mark. -/
theorem findOffset?_of_cutAfter {mark cs front rest : List Char}
    (h : cutAfter mark cs = some (front, rest)) :
    ∃ offset, findOffset? mark cs = some offset ∧ offset + byteLength mark = byteLength front := by
  induction cs generalizing front with
  | nil =>
    simp only [cutAfter] at h
    split at h
    next hm =>
      simp only [Option.some.injEq, Prod.mk.injEq] at h
      exact ⟨0, by simp [findOffset?, hm], by simp [hm, ← h.1]⟩
    next => simp at h
  | cons c cs ih =>
    simp only [cutAfter] at h
    split at h
    next hm =>
      simp only [Option.some.injEq, Prod.mk.injEq] at h
      exact ⟨0, by simp [findOffset?, hm], by rw [Nat.zero_add, h.1]⟩
    next hm =>
      obtain ⟨⟨a, b⟩, hcut, he⟩ := Option.map_eq_some_iff.mp h
      simp only [Prod.mk.injEq] at he
      obtain ⟨rfl, rfl⟩ := he
      obtain ⟨offset, hoff, hlen⟩ := ih hcut
      refine ⟨c.utf8Size + offset, by simp [findOffset?, hm, hoff], ?_⟩
      rw [byteLength_cons]
      omega

theorem findOffset?_eq_none {mark cs : List Char} (h : cutAfter mark cs = none) :
    findOffset? mark cs = none := by
  induction cs with
  | nil => simpa [cutAfter, findOffset?] using h
  | cons c cs ih =>
    simp only [cutAfter] at h
    split at h
    next => simp at h
    next hm => simp [findOffset?, hm, ih (Option.map_eq_none_iff.mp h)]

theorem byteLength_eq_length {cs : List Char} (h : ∀ c ∈ cs, c.utf8Size = 1) :
    byteLength cs = cs.length := by
  induction cs with
  | nil => rfl
  | cons c cs ih =>
    rw [byteLength_cons, h c List.mem_cons_self, ih fun d hd => h d (List.mem_cons_of_mem c hd),
      List.length_cons, Nat.add_comm]

section Ends
variable {α : Type} {p : α → Bool} {front back xs : List α} {x : α}

theorem exists_first (h : ∃ x ∈ xs, p x = true) :
    ∃ front x back, xs = front ++ x :: back ∧ p x = true ∧ ∀ y ∈ front, p y = false := by
  obtain ⟨x, hx⟩ := Option.isSome_iff_exists.mp (List.find?_isSome.mpr h)
  obtain ⟨hp, front, back, hxs, hfront⟩ := List.find?_eq_some_iff_append.mp hx
  exact ⟨front, x, back, hxs, hp, fun y hy => by simpa using hfront y hy⟩

theorem exists_last (h : ∃ x ∈ xs, p x = true) :
    ∃ front x back, xs = front ++ x :: back ∧ p x = true ∧ ∀ y ∈ back, p y = false := by
  have hr : ∃ x ∈ xs.reverse, p x = true := by simpa using h
  obtain ⟨front, x, back, hxs, hp, hfront⟩ := exists_first hr
  refine ⟨back.reverse, x, front.reverse, ?_, hp, fun y hy => hfront y (List.mem_reverse.mp hy)⟩
  rw [← List.reverse_reverse xs, hxs]
  simp

theorem findIdx?_split (hx : p x = true) (hf : ∀ y ∈ front, p y = false) (back : List α) :
    (front ++ x :: back).findIdx? p = some front.length := by
  rw [List.findIdx?_append, List.findIdx?_eq_none_iff.mpr hf, Option.none_or, List.findIdx?_cons,
    if_pos hx, Option.map_some, Nat.zero_add]

theorem lastIndex?_split (hx : p x = true) (hb : ∀ y ∈ back, p y = false) (front : List α) :
    lastIndex? p (front ++ x :: back) = some front.length := by
  have hrev : (front ++ x :: back).reverse = back.reverse ++ x :: front.reverse := by simp
  rw [lastIndex?, hrev, findIdx?_split hx fun y hy => hb y (List.mem_reverse.mp hy),
    Option.map_some, List.length_append, List.length_cons, List.length_reverse]
  congr 1
  omega

theorem lastIndex?_eq_none (h : ∀ x ∈ xs, p x = false) : lastIndex? p xs = none := by
  rw [lastIndex?, List.findIdx?_eq_none_iff.mpr fun x hx => h x (List.mem_reverse.mp hx),
    Option.map_none]

/-- The elements between two parts. -/
theorem elements?_append (front mid back : List α) :
    elements? (front ++ mid ++ back) front.length (front.length + mid.length) = some mid := by
  rw [elements?_eq_some (Nat.le_add_right ..) (by simp), ← List.length_append, List.take_left,
    List.drop_left]

end Ends

end CMakeManual.Text
