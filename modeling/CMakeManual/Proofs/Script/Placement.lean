import CMakeManual.Script.Scan

/-! Lexemes in their places. A lexeme of a script is what `nextLexeme` takes at the depth that the
lexemes before it leave, and a token stands where its lexeme does. -/
namespace CMakeManual.Script
open Text

/-- Open parentheses behind lexemes. -/
def depthBehind (depth : Nat) (ls : List Lexeme) : Nat :=
  ls.foldl (fun d l => l.form.depthAfter d) depth

@[simp] theorem depthBehind_nil (depth : Nat) : depthBehind depth [] = depth := rfl

@[simp] theorem depthBehind_cons (depth : Nat) (l : Lexeme) (ls : List Lexeme) :
    depthBehind depth (l :: ls) = depthBehind (l.form.depthAfter depth) ls := rfl

/-- Open parentheses behind a token; one that closes nothing leaves the count at zero. -/
def TokenKind.depthAfter (kind : TokenKind) (depth : Nat) : Nat :=
  match kind with
  | .leftParen => depth + 1
  | .rightParen => depth - 1
  | _ => depth

/-- Open parentheses behind tokens. -/
def tokenDepth (depth : Nat) (ts : List Token) : Nat :=
  ts.foldl (fun d t => t.kind.depthAfter d) depth

/-- What a lexeme that starts inside `depth` parentheses can be. -/
def Lexeme.FitsAt (depth : Nat) (l : Lexeme) : Prop :=
  match l.form with
  | .gap => ∃ c, l.text = [c] ∧ isBlank c = true ∧ (c = '\n' → 0 < depth)
  | .newline => l.text = ['\n'] ∧ depth = 0
  | .leftParen => l.text = ['(']
  | .rightParen => l.text = [')']
  | .ident => depth = 0
  | .unquoted | .quoted | .bracket => 0 < depth
  | .stray => ∃ c, l.text = [c]
  | .lineComment | .bracketComment | .openQuote | .openBracket _ => True

theorem commentLexeme_fitsAt (depth : Nat) (cs : List Char) :
    (commentLexeme cs).1.FitsAt depth := by
  unfold commentLexeme bracketLexeme
  split
  · split <;> trivial
  · trivial

theorem argumentLexeme_fitsAt {depth : Nat} (h : 0 < depth) (c : Char) (cs : List Char) :
    (argumentLexeme c cs).1.FitsAt depth := by
  unfold argumentLexeme bracketLexeme
  repeat' split
  all_goals first | exact h | trivial

/-- The step of the scanner. -/
theorem nextLexeme_fitsAt (depth : Nat) (c : Char) (cs : List Char) :
    (nextLexeme depth c cs).1.FitsAt depth := by
  unfold nextLexeme
  split
  next hn =>
    obtain rfl : c = '\n' := by simpa using hn
    by_cases hd : depth = 0
    · simp [Lexeme.FitsAt, hd]
    · simp only [hd, ↓reduceIte, Lexeme.FitsAt]
      exact ⟨'\n', rfl, by decide, fun _ => Nat.pos_of_ne_zero hd⟩
  next hn =>
    split
    next hb => exact ⟨c, rfl, hb, fun hc => absurd hc (by simpa using hn)⟩
    split
    · exact commentLexeme_fitsAt depth cs
    split
    next hp => simpa [Lexeme.FitsAt] using hp
    split
    next hp => simpa [Lexeme.FitsAt] using hp
    split
    next hd => exact argumentLexeme_fitsAt hd c cs
    next hd =>
      split
      · exact Nat.eq_zero_of_not_pos hd
      · exact ⟨c, rfl⟩

theorem lexemesFrom_cons (depth : Nat) (c : Char) (cs : List Char) :
    lexemesFrom depth (c :: cs) =
      (nextLexeme depth c cs).1 ::
        lexemesFrom ((nextLexeme depth c cs).1.form.depthAfter depth)
          (nextLexeme depth c cs).2 := by
  rw [lexemesFrom]

/-- The whole scan: every lexeme comes from one step, at the depth that was reached there. -/
theorem lexeme_of_lexemesFrom {depth : Nat} {cs : List Char} {before after : List Lexeme}
    {l : Lexeme} (h : lexemesFrom depth cs = before ++ l :: after) :
    ∃ c rest, l = (nextLexeme (depthBehind depth before) c rest).1 := by
  induction before generalizing depth cs with
  | nil =>
    cases cs with
    | nil => simp [lexemesFrom] at h
    | cons c cs =>
      rw [lexemesFrom_cons, List.nil_append, List.cons.injEq] at h
      exact ⟨c, cs, h.1.symm⟩
  | cons b before ih =>
    cases cs with
    | nil => simp [lexemesFrom] at h
    | cons c cs =>
      rw [lexemesFrom_cons, List.cons_append, List.cons.injEq] at h
      obtain ⟨rfl, h⟩ := h
      exact ih h

theorem lexemes_cases (cs : List Char) :
    (∃ rest, cs = byteOrderMark :: rest ∧
      lexemes cs = ⟨.gap, [byteOrderMark]⟩ :: lexemesFrom 0 rest) ∨
    cs.head? ≠ some byteOrderMark ∧ lexemes cs = lexemesFrom 0 cs := by
  cases cs with
  | nil => exact .inr ⟨by simp, by rw [lexemes, lexemesFrom]⟩
  | cons c rest =>
    by_cases hc : c = byteOrderMark
    · subst hc
      exact .inl ⟨rest, rfl, by rw [lexemes, if_pos rfl]⟩
    · exact .inr ⟨by simpa using hc, by rw [lexemes, if_neg hc]⟩

/-- A lexeme of a script fits where it stands, or it is the byte order mark. -/
theorem lexeme_of_lexemes {cs : List Char} {before after : List Lexeme} {l : Lexeme}
    (h : lexemes cs = before ++ l :: after) :
    l.text ≠ [] ∧ (l.FitsAt (depthBehind 0 before) ∨
      before = [] ∧ l = ⟨.gap, [byteOrderMark]⟩) := by
  have inside {cs : List Char} {before : List Lexeme}
      (h : lexemesFrom 0 cs = before ++ l :: after) :
      l.text ≠ [] ∧ l.FitsAt (depthBehind 0 before) := by
    obtain ⟨c, rest, rfl⟩ := lexeme_of_lexemesFrom h
    exact ⟨nextLexeme_text_ne_nil _ c rest, nextLexeme_fitsAt _ c rest⟩
  unfold lexemes at h
  split at h
  next c rest =>
    split at h
    next hc =>
      subst hc
      cases before with
      | nil =>
        rw [List.nil_append, List.cons.injEq] at h
        exact ⟨by simp [← h.1], .inr ⟨rfl, h.1.symm⟩⟩
      | cons b before =>
        rw [List.cons_append, List.cons.injEq] at h
        obtain ⟨rfl, h⟩ := h
        have hl := inside h
        exact ⟨hl.1, .inl hl.2⟩
    next => exact ⟨(inside h).1, .inl (inside h).2⟩
  next => simp at h

/-- The tokens of lexemes that stand one behind the other from `p` on. -/
def tokensAt (p : Position) (ls : List Lexeme) : List Token := (place p ls).filterMap Placed.token?

@[simp] theorem tokensAt_nil (p : Position) : tokensAt p [] = [] := rfl

theorem tokensAt_cons (p : Position) (l : Lexeme) (ls : List Lexeme) :
    tokensAt p (l :: ls) =
      (l.kind?.map fun kind => ⟨kind, p.span l.text, p.line⟩).toList ++
        tokensAt (p.after l.text) ls := by
  cases h : l.kind? <;> simp [tokensAt, place, Placed.token?, Placed.span, h]

theorem tokensAt_append (p : Position) (ls ms : List Lexeme) :
    tokensAt p (ls ++ ms) = tokensAt p ls ++ tokensAt (p.after (ls.flatMap Lexeme.text)) ms := by
  simp [tokensAt]

/-- A token stands where its lexeme does. -/
theorem mem_tokensAt {p : Position} {ls : List Lexeme} {t : Token} (h : t ∈ tokensAt p ls) :
    ∃ before l after, ls = before ++ l :: after ∧ l.kind? = some t.kind ∧
      t.span = (p.after (before.flatMap Lexeme.text)).span l.text := by
  induction ls generalizing p with
  | nil => simp at h
  | cons l ls ih =>
    rw [tokensAt_cons, List.mem_append] at h
    rcases h with h | h
    · obtain ⟨kind, hk, rfl⟩ := Option.map_eq_some_iff.mp (Option.mem_toList.mp h)
      exact ⟨[], l, ls, rfl, hk, rfl⟩
    · obtain ⟨before, m, after, rfl, hk, hs⟩ := ih h
      exact ⟨l :: before, m, after, rfl, hk, by simpa using hs⟩

theorem tokensAt_kinds (p : Position) (ls : List Lexeme) :
    (tokensAt p ls).map Token.kind = ls.filterMap Lexeme.kind? := by
  induction ls generalizing p with
  | nil => rfl
  | cons l ls ih =>
    rw [tokensAt_cons]
    cases hk : l.kind? <;> simp [hk, ih]

theorem tokensAt_ne_endOfFile {p : Position} {ls : List Lexeme} {t : Token}
    (h : t ∈ tokensAt p ls) : t.kind ≠ .endOfFile := by
  obtain ⟨-, l, -, -, hk, -⟩ := mem_tokensAt h
  intro he
  rw [he] at hk
  cases hf : l.form <;> simp [Lexeme.kind?, hf] at hk

/-- The tokens lie between the place of the first lexeme and the end of the last. -/
theorem tokensAt_bounds {p : Position} {ls : List Lexeme} {t : Token} (h : t ∈ tokensAt p ls) :
    p.offset ≤ t.span.start ∧ t.span.start ≤ t.span.stop ∧
      t.span.stop ≤ (p.after (ls.flatMap Lexeme.text)).offset := by
  obtain ⟨before, l, after, rfl, -, hs⟩ := mem_tokensAt h
  simp only [hs, Position.span, Position.after, List.flatMap_append, List.flatMap_cons,
    byteLength_append]
  omega

theorem tokensAt_ordered (p : Position) (ls : List Lexeme) :
    (tokensAt p ls).Pairwise fun t u => t.span.stop ≤ u.span.start := by
  induction ls generalizing p with
  | nil => simp
  | cons l ls ih =>
    rw [tokensAt_cons, List.pairwise_append]
    refine ⟨by cases l.kind? <;> simp, ih _, ?_⟩
    intro t ht u hu
    obtain ⟨kind, -, rfl⟩ := Option.map_eq_some_iff.mp (Option.mem_toList.mp ht)
    exact (tokensAt_bounds hu).1

theorem Lexeme.kind?_depthAfter (l : Lexeme) (depth : Nat) :
    l.form.depthAfter depth = l.kind?.elim depth fun kind => kind.depthAfter depth := by
  cases hf : l.form <;> simp [Lexeme.kind?, Form.depthAfter, TokenKind.depthAfter, hf]

theorem Lexeme.cause?_of_kind? {l : Lexeme} {kind : TokenKind} (h : l.kind? = some kind) :
    l.cause? = none := by
  cases hf : l.form <;> simp [Lexeme.kind?, Lexeme.cause?, hf] at h ⊢

/-- Tokens and lexemes count the same parentheses. -/
theorem tokenDepth_tokensAt (depth : Nat) (p : Position) (ls : List Lexeme) :
    tokenDepth depth (tokensAt p ls) = depthBehind depth ls := by
  induction ls generalizing depth p with
  | nil => rfl
  | cons l ls ih =>
    rw [tokensAt_cons, depthBehind_cons, l.kind?_depthAfter, ← ih _ (p.after l.text)]
    cases l.kind? <;> rfl

theorem place_faultless (p : Position) (ls : List Lexeme) :
    (place p ls).filterMap Placed.fault? = [] ↔ ∀ l ∈ ls, l.cause? = none := by
  induction ls generalizing p with
  | nil => simp [place]
  | cons l ls ih => cases hc : l.cause? <;> simp [place, Placed.fault?, hc, ih]

/-- A script scanned without a fault yields the tokens of its lexemes and the end token. -/
theorem scan_eq_ok {source : String} {tokens : List Token} :
    scan source = .ok tokens ↔
      (∀ l ∈ lexemes source.toList, l.cause? = none) ∧
        tokens = tokensAt .first (lexemes source.toList) ++
          [endToken (Position.first.after source.toList)] := by
  rw [← place_faultless .first]
  simp only [scan]
  split
  next hf => simp [hf, tokensAt, eq_comm]
  next hf => exact ⟨by simp, fun h => absurd h.1 hf⟩

end CMakeManual.Script
