import CMakeManual.Proofs.Script.Reprinting

/-! Scanner and reader count parentheses in step. A token of a script fits the depth at which it
stands, the reader is outside parentheses wherever it looks for a statement, and an invocation that
is not closed leaves the script with a parenthesis open. -/
namespace CMakeManual.Script
open Text

/-- Names and line ends stand outside parentheses, arguments inside. -/
def TokenKind.FitsAt (depth : Nat) : TokenKind → Prop
  | .ident _ | .newline => depth = 0
  | .unquoted _ | .quoted _ | .bracket _ => 0 < depth
  | .leftParen | .rightParen | .lineComment _ | .bracketComment _ | .endOfFile => True

/-- Tokens as a scan leaves them, from a place inside `depth` parentheses on: each fits where it
stands, and the file ends once, with the last of them. -/
inductive InStep : Nat → List Token → Prop
  | ends (depth : Nat) {t : Token} (hk : t.kind = .endOfFile) : InStep depth [t]
  | goesOn {depth : Nat} {t : Token} {ts : List Token} (he : t.kind ≠ .endOfFile)
      (hf : t.kind.FitsAt depth) (h : InStep (t.kind.depthAfter depth) ts) : InStep depth (t :: ts)

theorem Lexeme.FitsAt.kind {depth : Nat} {l : Lexeme} {kind : TokenKind} (h : l.FitsAt depth)
    (hk : l.kind? = some kind) : kind.FitsAt depth := by
  cases hf : l.form <;> simp [Lexeme.kind?, hf] at hk <;> subst hk <;>
    simp only [Lexeme.FitsAt, hf] at h <;> simp_all [TokenKind.FitsAt]

theorem inStep_tokensAt (depth : Nat) (cs : List Char) (p q : Position) :
    InStep depth (tokensAt p (lexemesFrom depth cs) ++ [endToken q]) := by
  fun_induction lexemesFrom depth cs generalizing p with
  | case1 depth => exact .ends depth rfl
  | case2 depth c cs next ih =>
    have hrest := ih (p.after next.1.text)
    have hdepth := next.1.kind?_depthAfter depth
    rw [tokensAt_cons]
    cases hk : next.1.kind? with
    | none =>
      rw [hk, Option.elim_none] at hdepth
      rw [hdepth] at hrest
      rw [hdepth]
      exact hrest
    | some kind =>
      rw [hk, Option.elim_some] at hdepth
      rw [hdepth] at hrest
      rw [hdepth]
      refine .goesOn ?_ ((nextLexeme_fitsAt depth c cs).kind hk) hrest
      rintro rfl
      exact Lexeme.kind?_ne_endOfFile next.1 hk

theorem inStep_of_scan {source : String} {tokens : List Token} (h : scan source = .ok tokens) :
    InStep 0 tokens := by
  obtain ⟨-, rfl⟩ := scan_eq_ok.mp h
  rcases lexemes_cases source.toList with ⟨rest, -, hl⟩ | ⟨-, hl⟩
  · rw [hl, tokensAt_cons]
    exact inStep_tokensAt 0 rest _ _
  · rw [hl]
    exact inStep_tokensAt 0 source.toList _ _

theorem InStep.ne_nil {depth : Nat} {ts : List Token} (h : InStep depth ts) : ts ≠ [] := by
  cases h <;> simp

theorem InStep.tail {depth : Nat} {t : Token} {ts : List Token} (h : InStep depth (t :: ts))
    (he : t.kind ≠ .endOfFile) : t.kind.FitsAt depth ∧ InStep (t.kind.depthAfter depth) ts := by
  cases h with
  | ends _ hk => exact absurd hk he
  | goesOn _ hf h => exact ⟨hf, h⟩

/-- Behind tokens that do not end the file, the others are in step at the depth reached there. -/
theorem InStep.behind {depth : Nat} {front rest : List Token} (h : InStep depth (front ++ rest))
    (hf : ∀ t ∈ front, t.kind ≠ .endOfFile) : InStep (tokenDepth depth front) rest := by
  induction front generalizing depth with
  | nil => exact h
  | cons t front ih =>
    have htail := (h.tail (hf t (by simp))).2
    exact ih htail fun u hu => hf u (by simp [hu])

/-- Every token fits the depth at which it stands. -/
theorem InStep.fits {depth : Nat} (front : List Token) {rest : List Token} {t : Token}
    (h : InStep depth (front ++ t :: rest)) : t.kind.FitsAt (tokenDepth depth front) := by
  induction front generalizing depth with
  | nil =>
    cases h with
    | ends _ hk =>
      rw [hk]
      trivial
    | goesOn _ hf _ => exact hf
  | cons u front ih =>
    generalize hl : u :: front ++ t :: rest = ts at h
    cases h with
    | ends => simp at hl
    | goesOn _ _ h =>
      obtain ⟨rfl, rfl⟩ := List.cons.inj hl
      exact ih h

/-- A body that is not closed runs to the end of the file, and leaves a parenthesis open there. -/
theorem InStep.unclosed {depth : Nat} {ts : List Token} (h : InStep (depth + 1) ts)
    {stop : Option Token} {rest : List Token} (hl : argumentList depth ts = .unclosed stop rest) :
    ∃ last, ts.getLast? = some last ∧ last.kind = .endOfFile ∧ stop = some last ∧ rest = [] ∧
      0 < tokenDepth (depth + 1) ts := by
  induction ts generalizing depth with
  | nil => exact absurd rfl h.ne_nil
  | cons t ts ih =>
    rcases argumentList_cons_cases depth t ts with ⟨hk, hr⟩ | ⟨-, -, hr⟩ | ⟨he, hle, hr⟩
    · cases h with
      | goesOn he => exact absurd hk he
      | ends =>
        rw [hr] at hl
        simp only [ArgumentList.unclosed.injEq] at hl
        refine ⟨t, rfl, hk, hl.1.symm, hl.2.symm, ?_⟩
        show 0 < t.kind.depthAfter (depth + 1)
        rw [hk]
        exact Nat.succ_pos depth
    · rw [hr] at hl
      cases hl
    · have hclose : t.kind = .rightParen → depth ≠ 0 := by
        rintro hk rfl
        simp [Token.closes, Token.opens, hk] at hle
      have htail := (h.tail he).2
      rw [(Token.depthAfter_succ hclose).2] at htail
      have hothers : argumentList (t.opens.toNat + depth - t.closes.toNat) ts =
          .unclosed stop rest := by
        cases ha : argumentList (t.opens.toNat + depth - t.closes.toNat) ts with
        | closed arguments close others =>
          rw [hr, ha, ArgumentList.prepend_closed] at hl
          cases hl
        | unclosed stop' others =>
          rw [hr, ha, ArgumentList.prepend_unclosed] at hl
          exact hl
      obtain ⟨last, hlast, hk, hs, hrest, hpos⟩ := ih htail hothers
      refine ⟨last, ?_, hk, hs, hrest, ?_⟩
      · rw [List.getLast?_cons, hlast]
        rfl
      · show 0 < tokenDepth (t.kind.depthAfter (depth + 1)) ts
        rw [(Token.depthAfter_succ hclose).2]
        exact hpos

/-- A statement that is given up is left at the next line end, which stands outside parentheses, or
at the end of the file. -/
theorem InStep.nextLine_cases {depth : Nat} {ts : List Token} (h : InStep depth ts) :
    (∃ last, nextLine ts = [last] ∧ last.kind = .endOfFile) ∨
    ∃ skipped n rest, ts = skipped ++ n :: rest ∧ nextLine ts = n :: rest ∧ n.kind = .newline ∧
      tokenDepth depth skipped = 0 ∧ InStep 0 (n :: rest) := by
  induction h with
  | @ends depth t hk =>
    left
    exact ⟨t, by simp [nextLine, endsStatement, hk], hk⟩
  | @goesOn depth t ts he hf h ih =>
    by_cases hn : t.kind = .newline
    · obtain rfl : depth = 0 := by
        rw [hn] at hf
        exact hf
      right
      exact ⟨[], t, ts, rfl, by simp [nextLine, endsStatement, hn], hn, rfl, .goesOn he hf h⟩
    · have hs : endsStatement t ≠ true := by simp [endsStatement, hn, he]
      rw [nextLine_cons, if_neg hs]
      rcases ih with hlast | ⟨skipped, n, rest, rfl, hr, hk, hd, hin⟩
      · exact .inl hlast
      · exact .inr ⟨t :: skipped, n, rest, rfl, hr, hk, hd, hin⟩

theorem InStep.nextLine {depth : Nat} {ts : List Token} (h : InStep depth ts) :
    InStep 0 (nextLine ts) := by
  rcases h.nextLine_cases with ⟨last, hr, hk⟩ | ⟨_, n, rest, -, hr, -, -, hin⟩
  · rw [hr]
    exact .ends 0 hk
  · rw [hr]
    exact hin

end CMakeManual.Script
