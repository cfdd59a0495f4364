import CMakeManual.Proofs.Script.Placement

/-! Scanning loses and invents nothing. The tokens of a script stand in order at the bytes that
spell them, and what no token covers is blank. -/
namespace CMakeManual.Script
open Text

/-- `text` stands in `source` at the bytes of `span`. -/
def SliceAt (source : String) (span : Span) (text : String) : Prop :=
  ∃ before after, source = before ++ text ++ after ∧ span.start = before.utf8ByteSize ∧
    span.stop = before.utf8ByteSize + text.utf8ByteSize

/-- The text that a token stands for. -/
def TokenKind.spelling : TokenKind → String
  | .leftParen => "("
  | .rightParen => ")"
  | .newline => "\n"
  | .endOfFile => ""
  | .ident s | .unquoted s | .quoted s | .bracket s | .lineComment s | .bracketComment s => s

/-- The byte at `offset` belongs to a token. -/
def Covered (tokens : List Token) (offset : Nat) : Prop :=
  ∃ t ∈ tokens, t.span.start ≤ offset ∧ offset < t.span.stop

/-- The tokens account for the whole source. -/
structure Lossless (source : String) (tokens : List Token) : Prop where
  /-- The one end token is the last and stands behind the last byte; no other token is empty. -/
  ends : ∃ body last, tokens = body ++ [last] ∧ last.kind = .endOfFile ∧
    last.span = ⟨source.utf8ByteSize, source.utf8ByteSize⟩ ∧
    ∀ t ∈ body, t.kind ≠ .endOfFile ∧ t.span.start < t.span.stop
  ordered : tokens.Pairwise fun t u => t.span.stop ≤ u.span.start
  spelled : ∀ t ∈ tokens, SliceAt source t.span t.kind.spelling
  /-- A character outside the tokens is blank, but for a byte order mark at the start. -/
  gaps : ∀ (before after : String) (c : Char), source = before ++ String.singleton c ++ after →
    ¬ Covered tokens before.utf8ByteSize →
      isBlank c = true ∨ before = "" ∧ c = byteOrderMark
  /-- A newline outside the tokens stands inside parentheses. -/
  newlines : ∀ before after : String, source = before ++ "\n" ++ after →
    ¬ Covered tokens before.utf8ByteSize →
      0 < tokenDepth 0 (tokens.filter fun t => t.span.stop ≤ before.utf8ByteSize)

theorem byteLength_ofList (cs : List Char) : (String.ofList cs).utf8ByteSize = byteLength cs := by
  induction cs with
  | nil => simp
  | cons c cs ih =>
    have hc : String.ofList (c :: cs) = String.singleton c ++ String.ofList cs := by
      rw [String.singleton_eq_ofList, ← String.ofList_append]
      rfl
    rw [hc, String.utf8ByteSize_append, String.utf8ByteSize_singleton, ih, byteLength_cons]

theorem byteLength_toList (s : String) : byteLength s.toList = s.utf8ByteSize := by
  rw [← byteLength_ofList, String.ofList_toList]

theorem byteLength_pos {cs : List Char} (h : cs ≠ []) : 0 < byteLength cs := by
  cases cs with
  | nil => exact absurd rfl h
  | cons c cs =>
    have := c.utf8Size_pos
    rw [byteLength_cons]
    omega

/-- A token's lexeme is spelled like the token. -/
theorem Lexeme.spelling_of_kind? {l : Lexeme} {kind : TokenKind} {depth : Nat}
    (hk : l.kind? = some kind) (hf : l.FitsAt depth) : kind.spelling.toList = l.text := by
  cases h : l.form <;> simp [Lexeme.kind?, h] at hk <;> subst hk <;>
    simp [Lexeme.FitsAt, h] at hf <;> simp [TokenKind.spelling, hf]

/-- A lexeme that is neither a token nor a fault is a gap. -/
theorem Lexeme.gap_of_none {l : Lexeme} (ht : l.text ≠ []) (hk : l.kind? = none)
    (hc : l.cause? = none) : l.form = .gap := by
  cases h : l.form <;> simp [Lexeme.kind?, Lexeme.cause?, h] at hk hc ⊢
  exact ht hc

/-- Every character of a script lies in a lexeme. -/
theorem lexeme_at {ls : List Lexeme} {before after : List Char} {c : Char}
    (h : ls.flatMap Lexeme.text = before ++ c :: after) :
    ∃ front l back u v, ls = front ++ l :: back ∧ l.text = u ++ c :: v ∧
      before = front.flatMap Lexeme.text ++ u := by
  induction ls generalizing before with
  | nil => simp at h
  | cons l ls ih =>
    have later (rest : List Char) (hb : before = l.text ++ rest)
        (hr : ls.flatMap Lexeme.text = rest ++ c :: after) :
        ∃ front m back u v, l :: ls = front ++ m :: back ∧ m.text = u ++ c :: v ∧
          before = front.flatMap Lexeme.text ++ u := by
      obtain ⟨front, m, back, u, v, rfl, hm, rfl⟩ := ih hr
      exact ⟨l :: front, m, back, u, v, rfl, hm, by simp [hb]⟩
    rw [List.flatMap_cons] at h
    rcases List.append_eq_append_iff.mp h with ⟨rest, hb, hr⟩ | ⟨rest, hl, hr⟩
    · exact later rest hb hr
    · cases rest with
      | nil => exact later [] (by simpa using hl.symm) (by simpa using hr.symm)
      | cons d rest =>
        simp only [List.cons_append, List.cons.injEq] at hr
        obtain ⟨rfl, -⟩ := hr
        exact ⟨[], l, ls, before, rest, rfl, hl, rfl⟩

theorem sliceAt_of_toList {source : String} {span : Span} {text : String}
    (before after : List Char) (hs : source.toList = before ++ text.toList ++ after)
    (hp : span = ⟨byteLength before, byteLength (before ++ text.toList)⟩) :
    SliceAt source span text := by
  refine ⟨String.ofList before, String.ofList after, ?_, ?_, ?_⟩
  · rw [← String.toList_inj, hs]
    simp
  · rw [hp, byteLength_ofList]
  · rw [hp, byteLength_ofList, byteLength_append, byteLength_toList]

/-- The end of a text in bytes, from the start of the script. -/
theorem offset_first_after (cs : List Char) : (Position.first.after cs).offset = byteLength cs := by
  simp [Position.after, Position.first]

/-- Tokens that start behind `offset` do not end at or before it. -/
theorem filter_behind {offset : Nat} {ts : List Token}
    (h : ∀ t ∈ ts, offset < t.span.stop) : (ts.filter fun t => t.span.stop ≤ offset) = [] := by
  rw [List.filter_eq_nil_iff]
  intro t ht
  simpa using h t ht

/-- The tokens that end at or before a gap are those of the lexemes before it. -/
theorem tokens_before_gap {source : String} {before after : List Lexeme} {l : Lexeme}
    (hs : lexemes source.toList = before ++ l :: after) (hl : l.text ≠ []) (hk : l.kind? = none) :
    (tokensAt .first (lexemes source.toList) ++
        [endToken (Position.first.after source.toList)]).filter
      (fun t => t.span.stop ≤ byteLength (before.flatMap Lexeme.text)) =
      tokensAt .first before := by
  have hsize := byteLength_pos hl
  have hfront : (tokensAt .first before).filter
      (fun t => t.span.stop ≤ byteLength (before.flatMap Lexeme.text)) =
        tokensAt .first before := by
    rw [List.filter_eq_self]
    intro t ht
    simpa [offset_first_after] using (tokensAt_bounds ht).2.2
  have hback : ∀ t ∈ tokensAt ((Position.first.after (before.flatMap Lexeme.text)).after l.text)
      after, byteLength (before.flatMap Lexeme.text) < t.span.stop := by
    intro t ht
    have hb := tokensAt_bounds ht
    rw [← Position.after_append, offset_first_after, byteLength_append] at hb
    omega
  have hend : ∀ t ∈ [endToken (Position.first.after source.toList)],
      byteLength (before.flatMap Lexeme.text) < t.span.stop := by
    have htext := lexemes_text source.toList
    rw [hs, List.flatMap_append, List.flatMap_cons] at htext
    simp only [List.mem_singleton, forall_eq, endToken, Position.span, Position.after_nil,
      offset_first_after, ← htext, byteLength_append]
    omega
  rw [hs, tokensAt_append, tokensAt_cons, hk, List.filter_append, List.filter_append, hfront,
    filter_behind hend]
  simp [filter_behind hback]

/-- A token covers the bytes of its lexeme. -/
theorem covered_of_kind? {ls before after : List Lexeme} {l : Lexeme} {kind : TokenKind}
    {u v : List Char} {c : Char} (hs : ls = before ++ l :: after) (hk : l.kind? = some kind)
    (ht : l.text = u ++ c :: v) :
    Covered (tokensAt .first ls) (byteLength (before.flatMap Lexeme.text ++ u)) := by
  have hpos := c.utf8Size_pos
  let p := Position.first.after (before.flatMap Lexeme.text)
  refine ⟨⟨kind, p.span l.text, p.line⟩, ?_, ?_⟩
  · rw [hs, tokensAt_append, tokensAt_cons, hk]
    simp [p]
  · simp only [p, Position.span, Position.after, Position.first, ht, byteLength_append,
      byteLength_cons]
    omega

/-- A character that no token covers is a lexeme of its own, and a gap. -/
theorem gap_of_not_covered {source : String} {tokens : List Token}
    (h : scan source = .ok tokens) {before after : String} {c : Char}
    (hs : source = before ++ String.singleton c ++ after)
    (hc : ¬ Covered tokens before.utf8ByteSize) :
    ∃ front back, lexemes source.toList = front ++ ⟨.gap, [c]⟩ :: back ∧
      before.toList = front.flatMap Lexeme.text := by
  obtain ⟨hfaultless, rfl⟩ := scan_eq_ok.mp h
  have hchars : (lexemes source.toList).flatMap Lexeme.text =
      before.toList ++ c :: after.toList := by
    rw [lexemes_text, hs]
    simp
  obtain ⟨front, l, back, u, v, hl, htext, hbefore⟩ := lexeme_at hchars
  obtain ⟨hne, hfits⟩ := lexeme_of_lexemes hl
  have hkind : l.kind? = none := by
    cases hk : l.kind? with
    | none => rfl
    | some kind =>
      obtain ⟨t, ht, hspan⟩ := covered_of_kind? hl hk htext
      rw [← hbefore, byteLength_toList] at hspan
      exact absurd ⟨t, List.mem_append_left _ ht, hspan⟩ hc
  have hform : l.form = .gap := Lexeme.gap_of_none hne hkind (hfaultless l (by simp [hl]))
  obtain ⟨d, hd⟩ : ∃ d, l.text = [d] := by
    rcases hfits with hfits | ⟨-, rfl⟩
    · simp only [Lexeme.FitsAt, hform] at hfits
      exact ⟨hfits.choose, hfits.choose_spec.1⟩
    · exact ⟨_, rfl⟩
  -- A gap is one character long, so nothing of it stands before or behind `c`.
  have hone : u = [] ∧ c = d := by
    rw [hd] at htext
    cases u with
    | nil => exact ⟨rfl, by simpa using (List.cons.inj htext).1.symm⟩
    | cons => simp at htext
  obtain ⟨rfl, rfl⟩ := hone
  refine ⟨front, back, ?_, by simpa using hbefore⟩
  rw [hl, ← hform, ← hd]

/-- A token of a script stands at the bytes of its lexeme, and these are not empty. -/
theorem sliceAt_of_mem {source : String} {t : Token}
    (h : t ∈ tokensAt .first (lexemes source.toList)) :
    SliceAt source t.span t.kind.spelling ∧ t.kind ≠ .endOfFile ∧ t.span.start < t.span.stop := by
  obtain ⟨before, l, after, hs, hk, hspan⟩ := mem_tokensAt h
  obtain ⟨hne, hfits⟩ := lexeme_of_lexemes hs
  have hspelled : t.kind.spelling.toList = l.text := by
    rcases hfits with hfits | ⟨-, rfl⟩
    · exact Lexeme.spelling_of_kind? hk hfits
    · simp [Lexeme.kind?] at hk
  refine ⟨sliceAt_of_toList (before.flatMap Lexeme.text) (after.flatMap Lexeme.text) ?_ ?_, ?_, ?_⟩
  · rw [← lexemes_text source.toList, hs, hspelled]
    simp
  · rw [hspan, hspelled]
    simp [Position.span, Position.after, Position.first]
  · exact tokensAt_ne_endOfFile h
  · have := byteLength_pos hne
    simp only [hspan, Position.span, Position.after]
    omega

theorem endToken_span (source : String) :
    (endToken (Position.first.after source.toList)).span =
      ⟨source.utf8ByteSize, source.utf8ByteSize⟩ := by
  simp [endToken, Position.span, offset_first_after, byteLength_toList]

section Scanned
variable {source : String} {tokens : List Token} (h : scan source = .ok tokens)
include h

theorem scan_ordered : tokens.Pairwise fun t u => t.span.stop ≤ u.span.start := by
  obtain ⟨-, rfl⟩ := scan_eq_ok.mp h
  rw [List.pairwise_append]
  refine ⟨tokensAt_ordered _ _, by simp, ?_⟩
  intro t ht u hu
  obtain rfl := List.mem_singleton.mp hu
  have hb := (tokensAt_bounds ht).2.2
  rw [lexemes_text, offset_first_after, byteLength_toList] at hb
  simpa [endToken_span] using hb

theorem scan_spelled : ∀ t ∈ tokens, SliceAt source t.span t.kind.spelling := by
  obtain ⟨-, rfl⟩ := scan_eq_ok.mp h
  intro t ht
  rcases List.mem_append.mp ht with ht | ht
  · exact (sliceAt_of_mem ht).1
  · obtain rfl := List.mem_singleton.mp ht
    refine ⟨source, "", by simp [endToken, TokenKind.spelling], ?_, ?_⟩
    · rw [endToken_span]
    · simp only [endToken_span]
      simp [endToken, TokenKind.spelling]

theorem blank_of_not_covered {before after : String} {c : Char}
    (hs : source = before ++ String.singleton c ++ after)
    (hc : ¬ Covered tokens before.utf8ByteSize) :
    isBlank c = true ∨ before = "" ∧ c = byteOrderMark := by
  obtain ⟨front, back, hl, hb⟩ := gap_of_not_covered h hs hc
  rcases (lexeme_of_lexemes hl).2 with ⟨d, hd, hblank, -⟩ | ⟨rfl, hm⟩
  · obtain rfl : c = d := by simpa using hd
    exact .inl hblank
  · refine .inr ⟨?_, by simpa using hm⟩
    rw [← String.toList_inj, hb]
    rfl

theorem depth_pos_of_newline {before after : String} (hs : source = before ++ "\n" ++ after)
    (hc : ¬ Covered tokens before.utf8ByteSize) :
    0 < tokenDepth 0 (tokens.filter fun t => t.span.stop ≤ before.utf8ByteSize) := by
  obtain ⟨front, back, hl, hb⟩ := gap_of_not_covered (c := '\n') h hs hc
  obtain ⟨-, rfl⟩ := scan_eq_ok.mp h
  have hbytes : before.utf8ByteSize = byteLength (front.flatMap Lexeme.text) := by
    rw [← byteLength_toList, hb]
  rw [hbytes, tokens_before_gap hl (by simp) (by simp [Lexeme.kind?]), tokenDepth_tokensAt]
  rcases (lexeme_of_lexemes hl).2 with ⟨d, hd, -, hdepth⟩ | ⟨-, hm⟩
  · exact hdepth (by simpa using hd.symm)
  · simp [byteOrderMark] at hm

end Scanned

/-- Scanning loses and invents nothing. -/
theorem scan_lossless {source : String} {tokens : List Token} (h : scan source = .ok tokens) :
    Lossless source tokens where
  ends := by
    obtain ⟨-, htokens⟩ := scan_eq_ok.mp h
    exact ⟨_, _, htokens, rfl, endToken_span source, fun t ht => (sliceAt_of_mem ht).2⟩
  ordered := scan_ordered h
  spelled := scan_spelled h
  gaps _ _ _ := blank_of_not_covered h
  newlines _ _ := depth_pos_of_newline h

/-- A byte order mark, a wide character and a line break inside the parentheses. -/
theorem scan_lossless_marked_call :
    Lossless "\ufefff(\u00e9\n \x22a\x22)\n"
      [⟨.ident "f", ⟨3, 4⟩, 1⟩, ⟨.leftParen, ⟨4, 5⟩, 1⟩, ⟨.unquoted "\u00e9", ⟨5, 7⟩, 1⟩,
        ⟨.quoted "\x22a\x22", ⟨9, 12⟩, 2⟩, ⟨.rightParen, ⟨12, 13⟩, 2⟩, ⟨.newline, ⟨13, 14⟩, 2⟩,
        ⟨.endOfFile, ⟨14, 14⟩, 3⟩] := by
  have hlexemes : lexemes "\ufefff(\u00e9\n \x22a\x22)\n".toList =
      [⟨.gap, ['\ufeff']⟩, ⟨.ident, ['f']⟩, ⟨.leftParen, ['(']⟩, ⟨.unquoted, ['\u00e9']⟩,
        ⟨.gap, ['\n']⟩, ⟨.gap, [' ']⟩, ⟨.quoted, ['\x22', 'a', '\x22']⟩, ⟨.rightParen, [')']⟩,
        ⟨.newline, ['\n']⟩] := by decide +kernel
  apply scan_lossless
  rw [scan_eq_ok, hlexemes]
  constructor
  · decide
  · decide

end CMakeManual.Script
