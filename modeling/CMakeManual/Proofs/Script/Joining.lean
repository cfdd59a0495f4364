import CMakeManual.Proofs.Script.Coverage
import CMakeManual.Proofs.Script.RoundTrip

/-! Two scripts with a line end between them. A line end outside parentheses belongs to no other
lexeme and ends the one before it, so the scripts are scanned as each is alone, the second one
moved behind the first. -/
namespace CMakeManual.Script
open Text

/-- How far a text is moved, in bytes and in lines. -/
structure Move where
  bytes : Nat
  lines : Nat
  deriving DecidableEq

def Span.moved (m : Move) (s : Span) : Span := ⟨s.start + m.bytes, s.stop + m.bytes⟩

def Position.moved (m : Move) (p : Position) : Position := ⟨p.offset + m.bytes, p.line + m.lines⟩

def Token.moved (m : Move) (t : Token) : Token := ⟨t.kind, t.span.moved m, t.line + m.lines⟩

/-- From the start of a script to behind `source` and a line end. -/
def Move.behind (source : String) : Move :=
  ⟨source.utf8ByteSize + 1, source.toList.count '\n' + 1⟩

/-- The line end behind `source`. -/
def lineEndBehind (source : String) : Token :=
  ⟨.newline, ⟨source.utf8ByteSize, source.utf8ByteSize + 1⟩, source.toList.count '\n' + 1⟩

@[simp] theorem Token.moved_kind (m : Move) (t : Token) : (t.moved m).kind = t.kind := rfl

@[simp] theorem Token.moved_span (m : Move) (t : Token) : (t.moved m).span = t.span.moved m := rfl

@[simp] theorem Token.moved_line (m : Move) (t : Token) : (t.moved m).line = t.line + m.lines :=
  rfl

theorem Position.moved_after (m : Move) (p : Position) (text : List Char) :
    (p.moved m).after text = (p.after text).moved m := by
  simp only [moved, after, Position.mk.injEq]
  omega

theorem Position.moved_span (m : Move) (p : Position) (text : List Char) :
    (p.moved m).span text = (p.span text).moved m := by
  rw [span, moved_after]
  rfl

/-- Moved lexemes give moved tokens. -/
theorem tokensAt_moved (m : Move) (p : Position) (ls : List Lexeme) :
    tokensAt (p.moved m) ls = (tokensAt p ls).map (Token.moved m) := by
  induction ls generalizing p with
  | nil => rfl
  | cons l ls ih =>
    rw [tokensAt_cons, tokensAt_cons, List.map_append, Position.moved_after, ih,
      Position.moved_span]
    cases l.kind? <;> rfl

theorem endToken_moved (m : Move) (p : Position) : endToken (p.moved m) = (endToken p).moved m := by
  rw [endToken, Position.moved_span]
  rfl

/-- The second script starts behind the first and the line end. -/
theorem after_lineEnd (source : String) :
    Position.first.after (source.toList ++ ['\n']) = Position.first.moved (Move.behind source) := by
  have hsize : Char.utf8Size '\n' = 1 := rfl
  simp only [Position.after, Position.first, Position.moved, Move.behind, byteLength_append,
    byteLength_cons, byteLength_nil, byteLength_toList, hsize, List.count_append,
    List.count_singleton_self]

theorem quotedRun_extend {cs run rest : List Char} (h : quotedRun cs = some (run, rest))
    (ds : List Char) : quotedRun (cs ++ ds) = some (run, rest ++ ds) := by
  fun_induction quotedRun cs generalizing run rest with
  | case1 => simp at h
  | case2 c r ih =>
    obtain ⟨⟨u, v⟩, hc, he⟩ := Option.map_eq_some_iff.mp h
    simp only [Prod.mk.injEq] at he
    obtain ⟨rfl, rfl⟩ := he
    simp [quotedRun, ih hc]
  | case3 c r _ hq =>
    obtain rfl : c = '\x22' := by simpa using hq
    simp only [Option.some.injEq, Prod.mk.injEq] at h
    obtain ⟨rfl, rfl⟩ := h
    simp [quotedRun_cons]
  | case4 c r hlast hq ih =>
    obtain ⟨⟨u, v⟩, hc, he⟩ := Option.map_eq_some_iff.mp h
    simp only [Prod.mk.injEq] at he
    obtain ⟨rfl, rfl⟩ := he
    -- A backslash that takes nothing with it would be the last character.
    have hb : c ≠ '\\' := by
      rintro rfl
      cases r with
      | nil => simp [quotedRun] at hc
      | cons d r => exact hlast d r rfl rfl
    simp [quotedRun_cons hb, hq, ih hc]

/-- An unquoted argument that something follows ends there. -/
theorem unquotedRun_extend {inQuotes : Bool} {cs run rest : List Char}
    (h : unquotedRun inQuotes cs = some (run, rest)) (hr : rest ≠ []) (ds : List Char) :
    unquotedRun inQuotes (cs ++ ds) = some (run, rest ++ ds) := by
  fun_induction unquotedRun inQuotes cs generalizing run rest with
  | case1 => simp at h
  | case2 => simp_all
  | case3 inQuotes c r ih =>
    obtain ⟨⟨u, v⟩, hc, he⟩ := Option.map_eq_some_iff.mp h
    simp only [Prod.mk.injEq] at he
    obtain ⟨rfl, rfl⟩ := he
    simp [unquotedRun, ih hc hr]
  | case4 inQuotes c r _ hend =>
    simp only [Option.some.injEq, Prod.mk.injEq] at h
    obtain ⟨rfl, rfl⟩ := h
    have hb : c ≠ '\\' := by
      rintro rfl
      exact absurd hend (by cases inQuotes <;> decide)
    simp only [List.cons_append, unquotedRun_cons hb, hend, ↓reduceIte]
  | case5 inQuotes c r hlast hend ih =>
    obtain ⟨⟨u, v⟩, hc, he⟩ := Option.map_eq_some_iff.mp h
    simp only [Prod.mk.injEq] at he
    obtain ⟨rfl, rfl⟩ := he
    have hb : c ≠ '\\' := by
      rintro rfl
      cases r with
      | nil =>
        have hv := unquotedRun_append hc
        exact hr (List.append_eq_nil_iff.mp hv).2
      | cons d r => exact hlast d r rfl rfl
    simp only [List.cons_append, unquotedRun_cons hb, hend, ih hc hr]
    rfl

theorem isPrefixOf_extend {mark cs : List Char} (h : mark.length ≤ cs.length) (ds : List Char) :
    mark.isPrefixOf (cs ++ ds) = mark.isPrefixOf cs := by
  rw [Bool.eq_iff_iff, List.isPrefixOf_iff_prefix, List.isPrefixOf_iff_prefix]
  constructor
  · intro hp
    exact List.prefix_of_prefix_length_le hp (List.prefix_append cs ds) h
  · intro hp
    exact hp.trans (List.prefix_append cs ds)

theorem length_le_of_cutAfter {mark cs front rest : List Char}
    (h : cutAfter mark cs = some (front, rest)) : mark.length ≤ cs.length := by
  induction cs generalizing front rest with
  | nil =>
    simp only [cutAfter] at h
    split at h
    next hm => simp [hm]
    next => simp at h
  | cons c r ih =>
    simp only [cutAfter] at h
    split at h
    next hp => exact (List.isPrefixOf_iff_prefix.mp hp).length_le
    next =>
      obtain ⟨⟨u, v⟩, hc, -⟩ := Option.map_eq_some_iff.mp h
      exact Nat.le_succ_of_le (ih hc)

/-- The first occurrence of a mark stays the first. -/
theorem cutAfter_extend {mark cs front rest : List Char}
    (h : cutAfter mark cs = some (front, rest)) (ds : List Char) :
    cutAfter mark (cs ++ ds) = some (front, rest ++ ds) := by
  have hlength := length_le_of_cutAfter h
  induction cs generalizing front rest with
  | nil =>
    obtain rfl : mark = [] := List.length_eq_zero_iff.mp (Nat.le_zero.mp hlength)
    simp only [cutAfter, ↓reduceIte, Option.some.injEq, Prod.mk.injEq] at h
    obtain ⟨rfl, rfl⟩ := h
    cases ds <;> simp [cutAfter]
  | cons c r ih =>
    have hp := isPrefixOf_extend hlength ds
    rw [List.cons_append] at hp ⊢
    simp only [cutAfter] at h ⊢
    rw [hp]
    split at h
    next hfound =>
      simp only [Option.some.injEq, Prod.mk.injEq] at h
      obtain ⟨rfl, rfl⟩ := h
      rw [if_pos hfound, ← List.cons_append, List.drop_append_of_le_length hlength]
    next hfound =>
      obtain ⟨⟨u, v⟩, hc, he⟩ := Option.map_eq_some_iff.mp h
      simp only [Prod.mk.injEq] at he
      obtain ⟨rfl, rfl⟩ := he
      rw [if_neg hfound, ih hc (length_le_of_cutAfter hc)]
      rfl

theorem bracketOpen?_extend {cs : List Char} {level : Nat} {body : List Char}
    (h : bracketOpen? cs = some (level, body)) (ds : List Char) :
    bracketOpen? (cs ++ ds) = some (level, body ++ ds) := by
  rw [← bracketOpen?_eq_some h, List.append_assoc, bracketOpen?_opener]

/-- A line end completes no opener. -/
theorem bracketOpen?_lineEnd {cs : List Char} (h : bracketOpen? cs = none) (ds : List Char) :
    bracketOpen? (cs ++ '\n' :: ds) = none := by
  apply bracketOpen?_eq_none
  · rintro level ⟨body, rfl⟩
    simp [bracketOpen?_opener] at h
  · simp

theorem bracketLexeme_extend {form : Form} {before : List Char} {level : Nat} {body : List Char}
    (h : (bracketLexeme form before level body).1.cause? = none) (ds : List Char) :
    bracketLexeme form before level (body ++ ds) =
      ((bracketLexeme form before level body).1,
        (bracketLexeme form before level body).2 ++ ds) := by
  cases hc : cutAfter (bracketCloser level) body with
  | some cut => simp [bracketLexeme, hc, cutAfter_extend hc]
  | none => simp [bracketLexeme, hc, Lexeme.cause?] at h

theorem takeWhile_lineEnd {p : Char → Bool} (hp : p '\n' = false) (cs ds : List Char) :
    (cs ++ '\n' :: ds).takeWhile p = cs.takeWhile p ∧
      (cs ++ '\n' :: ds).dropWhile p = cs.dropWhile p ++ '\n' :: ds := by
  induction cs with
  | nil => simp [hp]
  | cons c cs ih => cases hc : p c <;> simp [hc, ih]

theorem commentLexeme_lineEnd {cs : List Char} (h : (commentLexeme cs).1.cause? = none)
    (ds : List Char) :
    commentLexeme (cs ++ '\n' :: ds) =
      ((commentLexeme cs).1, (commentLexeme cs).2 ++ '\n' :: ds) := by
  cases ho : bracketOpen? cs with
  | some found =>
    simp only [commentLexeme, ho] at h
    simp only [commentLexeme, ho, bracketOpen?_extend ho, bracketLexeme_extend h]
  | none =>
    obtain ⟨ht, hd⟩ := takeWhile_lineEnd (p := (· != '\n')) rfl cs ds
    simp only [commentLexeme, ho, bracketOpen?_lineEnd ho, ht, hd]

/-- An argument that is closed, or that something follows, is not changed by a line end. -/
theorem argumentLexeme_lineEnd {c : Char} {cs : List Char}
    (h : (argumentLexeme c cs).1.cause? = none)
    (hu : (argumentLexeme c cs).1.form = .unquoted → (argumentLexeme c cs).2 ≠ [])
    (ds : List Char) :
    argumentLexeme c (cs ++ '\n' :: ds) =
      ((argumentLexeme c cs).1, (argumentLexeme c cs).2 ++ '\n' :: ds) := by
  by_cases hq : c = '\x22'
  · cases hr : quotedRun cs with
    | some cut => simp [argumentLexeme, hq, hr, quotedRun_extend hr]
    | none => simp [argumentLexeme, hq, hr, Lexeme.cause?] at h
  · have hq : (c == '\x22') = false := beq_eq_false_iff_ne.mpr hq
    cases ho : bracketOpen? (c :: cs) with
    | some found =>
      have he : bracketOpen? (c :: (cs ++ '\n' :: ds)) = _ := bracketOpen?_extend ho _
      simp only [argumentLexeme, hq, ho] at h
      simp only [argumentLexeme, hq, ho, he]
      exact bracketLexeme_extend h _
    | none =>
      have he : bracketOpen? (c :: (cs ++ '\n' :: ds)) = none := bracketOpen?_lineEnd ho ds
      cases hr : unquotedRun false (c :: cs) with
      | some cut =>
        have hrest : cut.2 ≠ [] := by simpa [argumentLexeme, hq, ho, hr] using hu
        have hx : unquotedRun false (c :: (cs ++ '\n' :: ds)) = _ :=
          unquotedRun_extend hr hrest ('\n' :: ds)
        simp [argumentLexeme, hq, ho, he, hr, hx]
      | none => simp [argumentLexeme, hq, ho, hr, Lexeme.cause?] at h

/-- What the scanner takes at a character, whatever follows it: the character alone, a comment, an
argument or a name. -/
theorem nextLexeme_cases (depth : Nat) (c : Char) :
    (∃ form, ∀ cs, nextLexeme depth c cs = (⟨form, [c]⟩, cs)) ∨
    (∀ cs, nextLexeme depth c cs = commentLexeme cs) ∨
    (∀ cs, nextLexeme depth c cs = argumentLexeme c cs) ∨
    ∀ cs, nextLexeme depth c cs =
      (⟨.ident, c :: cs.takeWhile continuesName⟩, cs.dropWhile continuesName) := by
  cases hn : c == '\n'
  case true => exact .inl ⟨if depth = 0 then .newline else .gap, fun cs => by simp [nextLexeme, hn]⟩
  cases hb : isBlank c
  case true => exact .inl ⟨.gap, fun cs => by simp [nextLexeme, hn, hb]⟩
  cases hc : c == '#'
  case true => exact .inr (.inl fun cs => by simp [nextLexeme, hn, hb, hc])
  cases hl : c == '('
  case true => exact .inl ⟨.leftParen, fun cs => by simp [nextLexeme, hn, hb, hc, hl]⟩
  cases hr : c == ')'
  case true => exact .inl ⟨.rightParen, fun cs => by simp [nextLexeme, hn, hb, hc, hl, hr]⟩
  by_cases hd : 0 < depth
  · exact .inr (.inr (.inl fun cs => by simp [nextLexeme, hn, hb, hc, hl, hr, hd]))
  cases hs : startsName c
  case true => exact .inr (.inr (.inr fun cs => by simp [nextLexeme, hn, hb, hc, hl, hr, hd, hs]))
  exact .inl ⟨.stray, fun cs => by simp [nextLexeme, hn, hb, hc, hl, hr, hd, hs]⟩

/-- The step: a line end changes no lexeme before it, unless that is an unquoted argument which
reaches up to it. -/
theorem nextLexeme_lineEnd {depth : Nat} {c : Char} {cs : List Char}
    (h : (nextLexeme depth c cs).1.cause? = none)
    (hu : (nextLexeme depth c cs).1.form = .unquoted → (nextLexeme depth c cs).2 ≠ [])
    (ds : List Char) :
    nextLexeme depth c (cs ++ '\n' :: ds) =
      ((nextLexeme depth c cs).1, (nextLexeme depth c cs).2 ++ '\n' :: ds) := by
  rcases nextLexeme_cases depth c with ⟨form, hn⟩ | hn | hn | hn
  · simp only [hn]
  · simp only [hn] at h ⊢
    exact commentLexeme_lineEnd h ds
  · simp only [hn] at h hu ⊢
    exact argumentLexeme_lineEnd h hu ds
  · obtain ⟨ht, hd⟩ := takeWhile_lineEnd (p := continuesName) (by decide) cs ds
    simp only [hn, ht, hd]

/-- The whole scan: a text that ends outside parentheses is scanned up to a line end as it is
alone. -/
theorem lexemesFrom_lineEnd_append {depth : Nat} {cs : List Char}
    (h : ∀ l ∈ lexemesFrom depth cs, l.cause? = none)
    (hd : depthBehind depth (lexemesFrom depth cs) = 0) (ds : List Char) :
    lexemesFrom depth (cs ++ '\n' :: ds) =
      lexemesFrom depth cs ++ ⟨.newline, ['\n']⟩ :: lexemesFrom 0 ds := by
  fun_induction lexemesFrom depth cs with
  | case1 depth =>
    obtain rfl : depth = 0 := hd
    exact lexemesFrom_of_next (by simp [nextLexeme])
  | case2 depth c cs next ih =>
    simp only [List.mem_cons, forall_eq_or_imp] at h
    have hu : next.1.form = .unquoted → next.2 ≠ [] := by
      intro hf hr
      have hfits : next.1.FitsAt depth := nextLexeme_fitsAt depth c cs
      simp only [Lexeme.FitsAt, hf] at hfits
      simp only [hr, lexemesFrom, depthBehind_cons, depthBehind_nil, hf, Form.depthAfter] at hd
      omega
    rw [List.cons_append, lexemesFrom_cons, nextLexeme_lineEnd h.1 hu, List.cons_append]
    exact congrArg _ (ih h.2 hd)

theorem lexemes_lineEnd_append {cs : List Char} (h : ∀ l ∈ lexemes cs, l.cause? = none)
    (hd : depthBehind 0 (lexemes cs) = 0) (ds : List Char) :
    lexemes (cs ++ '\n' :: ds) = lexemes cs ++ ⟨.newline, ['\n']⟩ :: lexemesFrom 0 ds := by
  cases cs with
  | nil =>
    have hhead : ('\n' :: ds).head? ≠ some byteOrderMark := by simp [byteOrderMark]
    rw [List.nil_append, lexemes_of_head hhead]
    exact lexemesFrom_of_next (by simp [nextLexeme])
  | cons c cs =>
    by_cases hc : c = byteOrderMark
    · simp only [lexemes, hc, ↓reduceIte, List.mem_cons, forall_eq_or_imp] at h hd
      simp only [lexemes, hc, List.cons_append, ↓reduceIte]
      exact congrArg _ (lexemesFrom_lineEnd_append h.2 hd ds)
    · simp only [lexemes, hc, ↓reduceIte] at h hd
      simp only [lexemes, hc, List.cons_append, ↓reduceIte]
      exact lexemesFrom_lineEnd_append h hd ds

/-- The tokens of two scripts with a line end between them: those of the first without its end
token, the line end, and those of the second moved behind it. -/
def joinedTokens (source : String) (ts us : List Token) : List Token :=
  ts.dropLast ++ lineEndBehind source :: us.map (Token.moved (.behind source))

theorem tokenDepth_endToken (depth : Nat) (ts : List Token) (p : Position) :
    tokenDepth depth (ts ++ [endToken p]) = tokenDepth depth ts := by
  rw [tokenDepth, List.foldl_append]
  rfl

/-- The lexemes of `source`, a line end and further lexemes give joined tokens. -/
theorem tokensAt_lineEnd {source : String} {ls : List Lexeme}
    (hs : ls.flatMap Lexeme.text = source.toList) (ms : List Lexeme) :
    tokensAt .first (ls ++ ⟨.newline, ['\n']⟩ :: ms) =
      tokensAt .first ls ++
        lineEndBehind source :: (tokensAt .first ms).map (Token.moved (.behind source)) := by
  have hline : (Position.first.after source.toList).span ['\n'] =
      ⟨source.utf8ByteSize, source.utf8ByteSize + 1⟩ := by
    have hsize : Char.utf8Size '\n' = 1 := rfl
    simp [Position.span, Position.after, Position.first, byteLength_toList, hsize]
  have hnumber : (Position.first.after source.toList).line = source.toList.count '\n' + 1 :=
    Nat.add_comm 1 _
  rw [tokensAt_append, hs, tokensAt_cons, ← Position.after_append, after_lineEnd, tokensAt_moved,
    hline, hnumber]
  rfl

/-- Two scripts are scanned apart if the first leaves no parenthesis open and the second has no
byte order mark. -/
theorem scan_joined {a b : String} {ts us : List Token} (ha : scan a = .ok ts)
    (hb : scan b = .ok us) (hd : tokenDepth 0 ts = 0) (hm : b.toList.head? ≠ some byteOrderMark) :
    scan (a ++ "\n" ++ b) = .ok (joinedTokens a ts us) := by
  obtain ⟨hfa, rfl⟩ := scan_eq_ok.mp ha
  obtain ⟨hfb, rfl⟩ := scan_eq_ok.mp hb
  rw [tokenDepth_endToken, tokenDepth_tokensAt] at hd
  have hchars : (a ++ "\n" ++ b).toList = a.toList ++ ['\n'] ++ b.toList := by simp
  have hlexemes : lexemes (a ++ "\n" ++ b).toList =
      lexemes a.toList ++ ⟨.newline, ['\n']⟩ :: lexemes b.toList := by
    rw [hchars, List.append_assoc, List.singleton_append, lexemes_lineEnd_append hfa hd,
      lexemes_of_head hm]
  have hend : Position.first.after (a ++ "\n" ++ b).toList =
      (Position.first.after b.toList).moved (.behind a) := by
    rw [hchars, Position.after_append, after_lineEnd, Position.moved_after]
  rw [scan_eq_ok, hlexemes]
  constructor
  · intro l hl
    simp only [List.mem_append, List.mem_cons] at hl
    rcases hl with hl | rfl | hl
    · exact hfa l hl
    · rfl
    · exact hfb l hl
  · rw [tokensAt_lineEnd (lexemes_text a.toList), hend, endToken_moved, joinedTokens,
      List.dropLast_concat, List.map_append, List.append_assoc]
    rfl

end CMakeManual.Script
