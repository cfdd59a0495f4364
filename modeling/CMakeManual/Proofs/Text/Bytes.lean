import CMakeManual.Text.Lines

/-! Texts and their bytes in UTF-8. A byte below 128 is a character of its own, so characters such
as the line end can be counted in bytes as well, and of two front parts of one text the one with
fewer bytes is a front part of the other. Texts in order have their bytes in order. -/
namespace CMakeManual.Text

/-- An ASCII character is its own byte, and no byte of another character is ASCII. -/
theorem utf8EncodeChar_cases (c : Char) :
    (c.toNat < 128 ∧ String.utf8EncodeChar c = [UInt8.ofNat c.toNat]) ∨
      ∀ b ∈ String.utf8EncodeChar c, 128 ≤ b.toNat := by
  by_cases hc : c.toNat ≤ 127
  · exact .inl ⟨Nat.lt_succ_of_le hc, if_pos hc⟩
  · right
    intro b hb
    have hwide : String.utf8EncodeChar c = _ := if_neg hc
    rw [hwide] at hb
    split at hb
    · simp only [List.mem_cons, List.not_mem_nil, or_false] at hb
      rcases hb with rfl | rfl <;> (rw [UInt8.toNat_ofNat']; omega)
    · split at hb
      · simp only [List.mem_cons, List.not_mem_nil, or_false] at hb
        rcases hb with rfl | rfl | rfl <;> (rw [UInt8.toNat_ofNat']; omega)
      · simp only [List.mem_cons, List.not_mem_nil, or_false] at hb
        rcases hb with rfl | rfl | rfl | rfl <;> (rw [UInt8.toNat_ofNat']; omega)

theorem utf8EncodeChar_ascii {q : Char} (hq : q.toNat < 128) :
    String.utf8EncodeChar q = [UInt8.ofNat q.toNat] :=
  if_pos (Nat.le_of_lt_succ hq)

theorem eq_of_mem_utf8EncodeChar {c q : Char} (hq : q.toNat < 128)
    (h : UInt8.ofNat q.toNat ∈ String.utf8EncodeChar c) : c = q := by
  rcases utf8EncodeChar_cases c with ⟨hc, hone⟩ | hwide
  · rw [hone, List.mem_singleton] at h
    have hnat := congrArg UInt8.toNat h
    rw [UInt8.toNat_ofNat', UInt8.toNat_ofNat'] at hnat
    exact Char.toNat_inj.mp (by omega)
  · have := hwide _ h
    rw [UInt8.toNat_ofNat'] at this
    omega

/-- An ASCII character occurs as often among the bytes as among the characters. -/
theorem count_utf8EncodeChar {q : Char} (hq : q.toNat < 128) (cs : List Char) :
    (cs.flatMap String.utf8EncodeChar).count (UInt8.ofNat q.toNat) = cs.count q := by
  induction cs with
  | nil => rfl
  | cons c cs ih =>
    rw [List.flatMap_cons, List.count_append, ih, List.count_cons, Nat.add_comm]
    by_cases hc : c = q
    · subst hc
      rw [utf8EncodeChar_ascii hq]
      simp
    · have hnone : (String.utf8EncodeChar c).count (UInt8.ofNat q.toNat) = 0 :=
        List.count_eq_zero.mpr fun hm => hc (eq_of_mem_utf8EncodeChar hq hm)
      simp [hnone, hc]

/-- Front parts of one text are ordered by their bytes. -/
theorem prefix_of_byteLength_le {xs ys zs : List Char} (hx : xs <+: zs) (hy : ys <+: zs)
    (h : byteLength xs ≤ byteLength ys) : xs <+: ys := by
  rcases List.prefix_or_prefix_of_prefix hx hy with hxy | ⟨rest, rfl⟩
  · exact hxy
  · rw [byteLength_append] at h
    cases rest with
    | nil => simp
    | cons c rest =>
      have := c.utf8Size_pos
      rw [byteLength_cons] at h
      omega

/-- Of two characters, the one with the smaller code has the smaller bytes, whatever follows. -/
theorem utf8EncodeChar_append_lt {c d : Char} (h : c < d) (bs es : List UInt8) :
    String.utf8EncodeChar c ++ bs < String.utf8EncodeChar d ++ es := by
  have hcode : c.val.toNat < d.val.toNat := h
  have hbound : d.val.toNat < 64 * 64 * 64 * 8 := by
    rcases d.valid with hlow | ⟨-, hhigh⟩
    · exact Nat.lt_trans hlow (by decide)
    · exact Nat.lt_trans hhigh (by decide)
  have hsecond : ∀ k : Nat, k / 4096 = k / 64 / 64 := by omega
  have hthird : ∀ k : Nat, k / 262144 = k / 64 / 64 / 64 := by omega
  unfold String.utf8EncodeChar
  generalize c.val.toNat = m at *
  generalize d.val.toNat = n at *
  simp only [hsecond, hthird]
  -- One case for each two widths: different widths show in the first byte, and within a width the
  -- bytes are digits to the base 64.
  (repeat' split) <;>
    simp (disch := omega) only [List.cons_append, List.nil_append, List.cons_lt_cons_iff,
      UInt8.lt_iff_toNat_lt, ← UInt8.toNat_inj, UInt8.toNat_ofNat', Nat.mod_eq_of_lt] <;>
    omega

/-- The bytes of `s` come before those of `t`, compared one by one. -/
def BytesBefore (s t : String) : Prop :=
  s.toList.flatMap String.utf8EncodeChar < t.toList.flatMap String.utf8EncodeChar

theorem flatMap_utf8EncodeChar_lt {cs ds : List Char} (h : cs < ds) :
    cs.flatMap String.utf8EncodeChar < ds.flatMap String.utf8EncodeChar := by
  induction cs generalizing ds with
  | nil =>
    cases ds with
    | nil => exact absurd h (List.lt_irrefl [])
    | cons d ds =>
      obtain ⟨b, bs, hb⟩ := List.exists_cons_of_ne_nil (String.utf8EncodeChar_ne_nil (c := d))
      rw [List.flatMap_cons, hb]
      exact List.nil_lt_cons b _
  | cons c cs ih =>
    cases ds with
    | nil => exact absurd h (List.not_lt_nil _)
    | cons d ds =>
      rw [List.flatMap_cons, List.flatMap_cons]
      rcases List.cons_lt_cons_iff.mp h with hcd | ⟨rfl, hrest⟩
      · exact utf8EncodeChar_append_lt hcd _ _
      · exact List.append_left_lt (ih hrest)

theorem bytesBefore_of_lt {s t : String} (h : s < t) : BytesBefore s t :=
  flatMap_utf8EncodeChar_lt (String.lt_iff.mp h)

end CMakeManual.Text
