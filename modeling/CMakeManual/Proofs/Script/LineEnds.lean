import CMakeManual.Proofs.Script.Reprinting
import CMakeManual.Proofs.Text.LineEnds
import Mathlib.Data.List.Forall2

/-! Scripts with carriage returns. A carriage return before a line end is a gap, or it is the last
character of a comment, so the scanner takes the same lexemes with and without it, but for the texts
of comments. The reader does not look into these, and finds the same commands and faults. -/
namespace CMakeManual.Script
open Text

/-- The comment is the same, or it has a carriage return at the end of its line, or some inside its
brackets. -/
inductive CommentAlike : CommentKind → List Char → List Char → Prop where
  | same {kind : CommentKind} (cs : List Char) : CommentAlike kind cs cs
  | line (cs : List Char) : CommentAlike .line cs (cs ++ ['\r'])
  | bracket (level : Nat) {body body' : List Char} (h : Returned body body') :
      CommentAlike .bracket ('#' :: (bracketOpener level ++ (body ++ bracketCloser level)))
        ('#' :: (bracketOpener level ++ (body' ++ bracketCloser level)))

theorem bracketCloser_plain (level : Nat) :
    '\n' ∉ bracketCloser level ∧ '\r' ∉ bracketCloser level := by
  simp [bracketCloser]

theorem bracketOpener_plain (level : Nat) :
    '\n' ∉ bracketOpener level ∧ '\r' ∉ bracketOpener level := by
  simp [bracketOpener]

theorem CommentAlike.count_lineEnd {kind : CommentKind} {cs ds : List Char}
    (h : CommentAlike kind cs ds) : ds.count '\n' = cs.count '\n' := by
  cases h with
  | same => rfl
  | line => simp
  | bracket level h => simp [h.count_lineEnd]

/-- The lexeme is the same, or another comment. -/
inductive Lexeme.Alike : Lexeme → Lexeme → Prop where
  | same (l : Lexeme) : Lexeme.Alike l l
  | comment (kind : CommentKind) {cs ds : List Char} (h : CommentAlike kind cs ds) :
      Lexeme.Alike ⟨kind.form, cs⟩ ⟨kind.form, ds⟩

/-- A lexeme and the text behind it. -/
def StepAlike (x y : Lexeme × List Char) : Prop := x.1.Alike y.1 ∧ Returned x.2 y.2

/-- An argument on one line. -/
def TokenKind.OnOneLine : TokenKind → Prop
  | .unquoted text | .quoted text | .bracket text => '\n' ∉ text.toList
  | _ => True

/-- A lexeme without a fault that is no argument over several lines. -/
def Lexeme.Steady (l : Lexeme) : Prop := l.cause? = none ∧ ∀ kind ∈ l.kind?, kind.OnOneLine

/-- Brackets open at the same places. -/
theorem bracketOpen?_returned {cs ds : List Char} (h : Returned cs ds) :
    (bracketOpen? cs = none ∧ bracketOpen? ds = none) ∨
    ∃ level body body', bracketOpen? cs = some (level, body) ∧
      bracketOpen? ds = some (level, body') ∧ Returned body body' := by
  cases hc : bracketOpen? cs with
  | none =>
    cases hd : bracketOpen? ds with
    | none => exact .inl ⟨rfl, rfl⟩
    | some found =>
      obtain ⟨level, body⟩ := found
      have hprefix : bracketOpener level <+: cs := by
        rw [h.prefix_iff (bracketOpener_plain level).1 (bracketOpener_plain level).2,
          ← bracketOpen?_eq_some hd]
        exact List.prefix_append _ _
      obtain ⟨rest, rfl⟩ := hprefix
      simp [bracketOpen?_opener] at hc
  | some found =>
    obtain ⟨level, body⟩ := found
    rw [← bracketOpen?_eq_some hc] at h
    obtain ⟨body', rfl, hbody⟩ := h.of_append (bracketOpener_plain level).1
    exact .inr ⟨level, body, body', rfl, bracketOpen?_opener level body', hbody⟩

/-- A bracket that is closed is closed at the same place. -/
theorem bracketLexeme_returned {form : Form} {before : List Char} {level : Nat}
    {body body' : List Char} (h : Returned body body')
    (hc : (bracketLexeme form before level body).1.cause? = none) :
    ∃ inside inside' rest rest', Returned inside inside' ∧ Returned rest rest' ∧
      bracketLexeme form before level body =
        (⟨form, before ++ (bracketOpener level ++ (inside ++ bracketCloser level))⟩, rest) ∧
      bracketLexeme form before level body' =
        (⟨form, before ++ (bracketOpener level ++ (inside' ++ bracketCloser level))⟩, rest') := by
  unfold bracketLexeme at hc ⊢
  cases hcut : cutAfter (bracketCloser level) body with
  | none => simp [hcut, Lexeme.cause?] at hc
  | some cut =>
    obtain ⟨front, rest⟩ := cut
    obtain ⟨hn, hr⟩ := bracketCloser_plain level
    obtain ⟨inside, inside', rest', rfl, hcut', hinside, hrest⟩ :=
      h.cutAfter (by simp [bracketCloser]) hn hr hcut
    exact ⟨inside, inside', rest, rest', hinside, hrest, by simp, by simp [hcut']⟩

theorem commentLexeme_alike {cs ds : List Char} (h : Returned cs ds)
    (hc : (commentLexeme cs).1.cause? = none) :
    StepAlike (commentLexeme cs) (commentLexeme ds) := by
  rcases bracketOpen?_returned h with ⟨ho, ho'⟩ | ⟨level, body, body', ho, ho', hbody⟩
  · obtain ⟨htake, hdrop⟩ := h.takeLine
    simp only [commentLexeme, ho, ho']
    refine ⟨.comment .line ?_, hdrop⟩
    rcases htake with htake | htake
    · rw [htake]
      exact .same _
    · rw [htake]
      exact .line ('#' :: cs.takeWhile (· != '\n'))
  · simp only [commentLexeme, ho, ho'] at hc ⊢
    obtain ⟨inside, inside', rest, rest', hinside, hrest, hl, hl'⟩ :=
      bracketLexeme_returned hbody hc
    rw [hl, hl']
    exact ⟨.comment .bracket (.bracket level hinside), hrest⟩

theorem quotedRun_returned {cs ds run rest : List Char} (h : Returned cs ds)
    (hq : quotedRun cs = some (run, rest)) (hn : '\n' ∉ run) :
    ∃ rest', quotedRun ds = some (run, rest') ∧ Returned rest rest' := by
  rw [← quotedRun_append hq] at h
  obtain ⟨rest', rfl, hrest⟩ := h.of_append hn
  exact ⟨rest', quotedRun_of_tail (quotedTail_of_quotedRun hq) rest', hrest⟩

/-- An unquoted argument ends before a carriage return as it does before a line end. -/
theorem unquotedRun_returned {inQuotes : Bool} {cs ds run rest : List Char} (h : Returned cs ds)
    (hu : unquotedRun inQuotes cs = some (run, rest)) (hn : '\n' ∉ run) :
    ∃ rest', unquotedRun inQuotes ds = some (run, rest') ∧ Returned rest rest' := by
  fun_induction unquotedRun inQuotes cs generalizing ds run rest with
  | case1 => simp at hu
  | case2 =>
    obtain ⟨rfl, rfl⟩ := Prod.mk.inj (Option.some.inj hu)
    obtain rfl := h.of_nil
    exact ⟨[], by simp_all [unquotedRun], .nil⟩
  | case3 inQuotes c r ih =>
    obtain ⟨⟨u, v⟩, hc, ⟨⟩⟩ := Option.map_eq_some_iff.mp hu
    simp only [List.mem_cons, not_or] at hn
    obtain ⟨es, rfl, hes⟩ := h.of_cons (by decide)
    obtain ⟨ds, rfl, hds⟩ := hes.of_cons (Ne.symm hn.2.1)
    obtain ⟨rest', hrun, hrest⟩ := ih hds hc hn.2.2
    exact ⟨rest', by simp [unquotedRun, hrun], hrest⟩
  | case4 inQuotes c r hlast hend =>
    obtain ⟨rfl, rfl⟩ := Prod.mk.inj (Option.some.inj hu)
    have stops {d : Char} (hd : endsUnquoted d = true) (s : List Char) :
        unquotedRun inQuotes (d :: s) = some ([], d :: s) := by
      have hb : d ≠ '\\' := by
        rintro rfl
        exact absurd hd (by decide)
      simp_all [unquotedRun_cons hb]
    have hc : endsUnquoted c = true := by simp_all
    refine ⟨ds, ?_, h⟩
    cases h with
    | same _ _ => exact stops hc _
    | returned _ => exact stops (by decide) _
  | case5 inQuotes c r hlast hend ih =>
    obtain ⟨⟨u, v⟩, hc, ⟨⟩⟩ := Option.map_eq_some_iff.mp hu
    simp only [List.mem_cons, not_or] at hn
    obtain ⟨ds, rfl, hds⟩ := h.of_cons (Ne.symm hn.1)
    obtain ⟨rest', hrun, hrest⟩ := ih hds hc hn.2
    refine ⟨rest', ?_, hrest⟩
    rw [unquotedRun]
    · rw [if_neg hend, hrun]
      rfl
    · -- A backslash here is the last character of both texts.
      rintro d s rfl rfl
      cases r with
      | nil => exact absurd hds.of_nil (by simp)
      | cons e r => exact hlast e r rfl rfl

/-- The step inside parentheses. -/
theorem argumentLexeme_alike {c : Char} (hc : c ≠ '\r') {cs ds : List Char} (h : Returned cs ds)
    (hl : (argumentLexeme c cs).1.Steady) :
    StepAlike (argumentLexeme c cs) (argumentLexeme c ds) := by
  have hcs : Returned (c :: cs) (c :: ds) := .same hc h
  obtain ⟨hcause, hline⟩ := hl
  unfold argumentLexeme at hcause hline ⊢
  split
  next hq =>
    simp only [hq, ↓reduceIte] at hcause hline
    cases hrun : quotedRun cs with
    | none => simp [hrun, Lexeme.cause?] at hcause
    | some cut =>
      obtain ⟨run, rest⟩ := cut
      simp only [hrun] at hline
      have hn : '\n' ∉ c :: run := by simpa [Lexeme.kind?, TokenKind.OnOneLine] using hline
      obtain ⟨rest', hrun', hrest⟩ := quotedRun_returned h hrun fun hm => hn (by simp [hm])
      rw [hrun']
      exact ⟨.same _, hrest⟩
  next hq =>
    rw [if_neg hq] at hcause hline
    rcases bracketOpen?_returned hcs with ⟨ho, ho'⟩ | ⟨level, body, body', ho, ho', hbody⟩
    · simp only [ho, ho'] at hcause hline ⊢
      cases hrun : unquotedRun false (c :: cs) with
      | none => simp [hrun, Lexeme.cause?] at hcause
      | some cut =>
        obtain ⟨run, rest⟩ := cut
        simp only [hrun] at hline
        have hn : '\n' ∉ run := by simpa [Lexeme.kind?, TokenKind.OnOneLine] using hline
        obtain ⟨rest', hrun', hrest⟩ := unquotedRun_returned hcs hrun hn
        rw [hrun']
        exact ⟨.same _, hrest⟩
    · simp only [ho, ho'] at hcause hline ⊢
      obtain ⟨inside, inside', rest, rest', hinside, hrest, hl, hl'⟩ :=
        bracketLexeme_returned hbody hcause
      rw [hl] at hline
      have hn : '\n' ∉ inside := by
        simp_all [Lexeme.kind?, TokenKind.OnOneLine]
      rw [hl, hl', hinside.eq_of_not_mem hn]
      exact ⟨.same _, hrest⟩

/-- The step: texts that start with the same character give alike lexemes. -/
theorem nextLexeme_alike {depth : Nat} {c : Char} (hc : c ≠ '\r') {cs ds : List Char}
    (h : Returned cs ds) (hl : (nextLexeme depth c cs).1.Steady) :
    StepAlike (nextLexeme depth c cs) (nextLexeme depth c ds) := by
  rcases nextLexeme_cases depth c with ⟨form, hn⟩ | hn | hn | hn
  · rw [hn, hn]
    exact ⟨.same _, h⟩
  · rw [hn] at hl
    rw [hn, hn]
    exact commentLexeme_alike h hl.1
  · rw [hn] at hl
    rw [hn, hn]
    exact argumentLexeme_alike hc h hl
  · obtain ⟨htake, hdrop⟩ := h.takeWhile (p := continuesName) (by decide) (by decide)
    rw [hn, hn, htake]
    exact ⟨.same _, hdrop⟩

/-- The second lexemes are like the first, with gaps that end no line between them. -/
inductive LexemesAlike : List Lexeme → List Lexeme → Prop where
  | nil : LexemesAlike [] []
  | cons {l m : Lexeme} {ls ms : List Lexeme} (hl : l.Alike m) (h : LexemesAlike ls ms) :
      LexemesAlike (l :: ls) (m :: ms)
  | gap {c : Char} {ls ms : List Lexeme} (hc : c ≠ '\n') (h : LexemesAlike ls ms) :
      LexemesAlike ls (⟨.gap, [c]⟩ :: ms)

theorem Lexeme.Alike.form {l m : Lexeme} (h : l.Alike m) : m.form = l.form := by
  cases h <;> rfl

theorem Lexeme.Alike.cause? {l m : Lexeme} (h : l.Alike m) (hl : l.cause? = none) :
    m.cause? = none := by
  cases h with
  | same => exact hl
  | comment kind h => cases kind <;> rfl

theorem Lexeme.Alike.count_lineEnd {l m : Lexeme} (h : l.Alike m) :
    m.text.count '\n' = l.text.count '\n' := by
  cases h with
  | same => rfl
  | comment kind h => exact h.count_lineEnd

theorem lexemesFrom_return (depth : Nat) (cs : List Char) :
    lexemesFrom depth ('\r' :: cs) = ⟨.gap, ['\r']⟩ :: lexemesFrom depth cs := by
  apply lexemesFrom_of_next (l := ⟨.gap, ['\r']⟩)
  rfl

/-- The whole scan. -/
theorem lexemesFrom_alike {depth : Nat} {cs : List Char} (ds : List Char) (h : Returned cs ds)
    (hl : ∀ l ∈ lexemesFrom depth cs, l.Steady) :
    LexemesAlike (lexemesFrom depth cs) (lexemesFrom depth ds) := by
  fun_induction lexemesFrom depth cs generalizing ds with
  | case1 depth =>
    rw [h.of_nil, lexemesFrom]
    exact .nil
  | case2 depth c cs next ih =>
    have step {ds : List Char} (hc : c ≠ '\r') (h : Returned cs ds) :
        LexemesAlike (next.1 :: lexemesFrom (next.1.form.depthAfter depth) next.2)
          (lexemesFrom depth (c :: ds)) := by
      obtain ⟨halike, hrest⟩ := nextLexeme_alike hc h (hl next.1 (by simp))
      rw [lexemesFrom_cons, halike.form]
      exact .cons halike (ih _ hrest fun l hm => hl l (by simp [hm]))
    cases h with
    | same hc h => exact step hc h
    | returned h =>
      rw [lexemesFrom_return]
      exact .gap (by decide) (step (by decide) h)

/-- The token is the same, or another comment. -/
def TokenKind.Alike : TokenKind → TokenKind → Prop
  | .lineComment x, other => ∃ y, other = .lineComment y ∧ CommentAlike .line x.toList y.toList
  | .bracketComment x, other =>
      ∃ y, other = .bracketComment y ∧ CommentAlike .bracket x.toList y.toList
  | kind, other => other = kind

structure Token.Alike (t u : Token) : Prop where
  kind : t.kind.Alike u.kind
  line : u.line = t.line

theorem TokenKind.alike_refl (kind : TokenKind) : kind.Alike kind := by
  cases kind with
  | lineComment x => exact ⟨x, rfl, .same _⟩
  | bracketComment x => exact ⟨x, rfl, .same _⟩
  | _ => rfl

theorem Lexeme.Alike.kind? {l m : Lexeme} (h : l.Alike m) :
    Option.Rel TokenKind.Alike l.kind? m.kind? := by
  cases h with
  | same =>
    cases l.kind? with
    | none => exact .none
    | some kind => exact .some kind.alike_refl
  | @comment kind cs ds h =>
    cases kind with
    | line => exact .some ⟨String.ofList ds, rfl, by simpa using h⟩
    | bracket => exact .some ⟨String.ofList ds, rfl, by simpa using h⟩

namespace LexemesAlike
variable {ls ms : List Lexeme} (h : LexemesAlike ls ms)
include h

theorem cause? (hl : ∀ l ∈ ls, l.cause? = none) : ∀ m ∈ ms, m.cause? = none := by
  induction h with
  | nil => exact hl
  | cons halike _ ih =>
    rw [List.forall_mem_cons] at hl ⊢
    exact ⟨halike.cause? hl.1, ih hl.2⟩
  | gap _ _ ih => exact List.forall_mem_cons.mpr ⟨rfl, ih hl⟩

theorem count_lineEnd :
    (ms.flatMap Lexeme.text).count '\n' = (ls.flatMap Lexeme.text).count '\n' := by
  induction h with
  | nil => rfl
  | cons halike _ ih => simp [ih, halike.count_lineEnd]
  | gap hc _ ih => simp [ih, hc]

/-- Alike lexemes that start on one line give alike tokens. -/
theorem tokensAt {p q : Position} (hpq : q.line = p.line) :
    List.Forall₂ Token.Alike (Script.tokensAt p ls) (Script.tokensAt q ms) := by
  induction h generalizing p q with
  | nil => exact .nil
  | @cons l m ls ms halike _ ih =>
    have hline : (q.after m.text).line = (p.after l.text).line := by
      simp only [Position.after, hpq, halike.count_lineEnd]
    rw [tokensAt_cons, tokensAt_cons]
    have hkind := halike.kind?
    generalize l.kind? = x, m.kind? = y at hkind
    cases hkind with
    | none => exact ih hline
    | some hk => exact .cons ⟨hk, hpq⟩ (ih hline)
  | @gap c ls ms hc _ ih =>
    rw [tokensAt_cons]
    apply ih
    simp [Position.after, hpq, hc]

end LexemesAlike

/-- Scripts with alike lexemes have alike tokens. -/
theorem scan_alike {source other : String} {tokens : List Token} (hs : scan source = .ok tokens)
    (h : LexemesAlike (lexemes source.toList) (lexemes other.toList)) :
    ∃ others, scan other = .ok others ∧ List.Forall₂ Token.Alike tokens others := by
  obtain ⟨hfaultless, rfl⟩ := scan_eq_ok.mp hs
  refine ⟨_, scan_eq_ok.mpr ⟨h.cause? hfaultless, rfl⟩, ?_⟩
  have hcount := h.count_lineEnd
  rw [lexemes_text, lexemes_text] at hcount
  refine List.rel_append (h.tokensAt rfl) (.cons ⟨rfl, ?_⟩ .nil)
  simp only [endToken, Position.after, hcount]

theorem TokenKind.Alike.eq {k l : TokenKind} (h : k.Alike l)
    (hline : ∀ x, k = .lineComment x → False) (hbracket : ∀ x, k = .bracketComment x → False) :
    l = k := by
  cases k with
  | lineComment x => exact absurd rfl (hline x)
  | bracketComment x => exact absurd rfl (hbracket x)
  | _ => exact h

/-- Alike tokens do the same to the reader. -/
theorem Token.Alike.same {t u : Token} (h : t.Alike u) :
    u.kind.argument? = t.kind.argument? ∧ u.opens = t.opens ∧ u.closes = t.closes ∧
      (u.kind = .endOfFile ↔ t.kind = .endOfFile) ∧ endsStatement u = endsStatement t := by
  have hkind := h.kind
  cases hk : t.kind with
  | lineComment x =>
    rw [hk] at hkind
    obtain ⟨y, hy, -⟩ := hkind
    simp [hy, hk, TokenKind.argument?, Token.opens, Token.closes, endsStatement]
  | bracketComment x =>
    rw [hk] at hkind
    obtain ⟨y, hy, -⟩ := hkind
    simp [hy, hk, TokenKind.argument?, Token.opens, Token.closes, endsStatement]
  | _ =>
    have hu : u.kind = t.kind := hkind.eq (by simp [hk]) (by simp [hk])
    simp [hu, hk, Token.opens, Token.closes, endsStatement]

/-- The fault is the same at another place of the same line. The cause decides the label, the
message and the hint. -/
structure Fault.Alike (f g : Fault) : Prop where
  cause : g.cause = f.cause
  line : g.line = f.line

/-- The node is the same at another place of the same line, or another comment. -/
inductive Node.Alike : Node → Node → Prop where
  | invocation (c : Invocation) (span : Span) :
      Node.Alike (.invocation c) (.invocation { c with span })
  | comment {kind : CommentKind} {x y : String} (line : Nat)
      (h : CommentAlike kind x.toList y.toList) :
      Node.Alike (.comment ⟨kind, x, line⟩) (.comment ⟨kind, y, line⟩)
  | blankLine (line : Nat) : Node.Alike (.blankLine line) (.blankLine line)

inductive ArgumentList.Alike : ArgumentList → ArgumentList → Prop where
  | closed (arguments : List Argument) {close close' : Token} {rest rest' : List Token}
      (h : List.Forall₂ Token.Alike rest rest') :
      ArgumentList.Alike (.closed arguments close rest) (.closed arguments close' rest')
  | unclosed {stop stop' : Option Token} {rest rest' : List Token}
      (h : List.Forall₂ Token.Alike rest rest') :
      ArgumentList.Alike (.unclosed stop rest) (.unclosed stop' rest')

theorem ArgumentList.Alike.prepend {l m : ArgumentList} (h : l.Alike m) (front : List Argument) :
    (l.prepend front).Alike (m.prepend front) := by
  cases h with
  | closed arguments h =>
    rw [prepend_closed, prepend_closed]
    exact .closed _ h
  | unclosed h =>
    rw [prepend_unclosed, prepend_unclosed]
    exact .unclosed h

theorem argumentList_alike (depth : Nat) {ts us : List Token}
    (h : List.Forall₂ Token.Alike ts us) :
    (argumentList depth ts).Alike (argumentList depth us) := by
  induction h generalizing depth with
  | nil => exact .unclosed .nil
  | @cons t u ts us ht hts ih =>
    obtain ⟨hargument, hopens, hcloses, hend, -⟩ := ht.same
    rcases argumentList_cons_cases depth t ts with ⟨hk, hr⟩ | ⟨hk, rfl, hr⟩ | ⟨hk, hle, hr⟩
    · rw [hr, argumentList, hend.mpr hk]
      exact .unclosed hts
    · have hu : u.kind = .rightParen := by simpa [Token.closes, hk] using hcloses
      rw [hr, argumentList, hu]
      exact .closed [] hts
    · rcases argumentList_cons_cases depth u us with ⟨hk', -⟩ | ⟨hk', rfl, -⟩ | ⟨-, -, hr'⟩
      · exact absurd (hend.mp hk') hk
      · have ht : t.kind = .rightParen := by simpa [Token.closes, hk', eq_comm] using hcloses
        simp [Token.closes, Token.opens, ht] at hle
      · rw [hr, hr', hargument, hopens, hcloses]
        exact (ih _).prepend _

theorem nextLine_alike {ts us : List Token} (h : List.Forall₂ Token.Alike ts us) :
    List.Forall₂ Token.Alike (nextLine ts) (nextLine us) := by
  induction h with
  | nil => exact .nil
  | @cons t u ts us ht hts ih =>
    obtain ⟨-, -, -, -, hends⟩ := ht.same
    rw [nextLine_cons, nextLine_cons, hends]
    split
    · exact .cons ht hts
    · exact ih

/-- A statement, or what is wrong with it. -/
inductive StatementAlike : Except Fault Invocation → Except Fault Invocation → Prop where
  | ok (c : Invocation) (span : Span) : StatementAlike (.ok c) (.ok { c with span })
  | error {f g : Fault} (h : f.Alike g) : StatementAlike (.error f) (.error g)

theorem statement_alike (name : String) {t u : Token} (htu : u.line = t.line) {ts us : List Token}
    (h : List.Forall₂ Token.Alike ts us) :
    StatementAlike (statement name t ts).1 (statement name u us).1 ∧
      List.Forall₂ Token.Alike (statement name t ts).2 (statement name u us).2 := by
  cases h with
  | nil => exact ⟨.error ⟨rfl, htu⟩, .nil⟩
  | @cons paren paren' ts us hp hts =>
    obtain ⟨-, hopens, -⟩ := hp.same
    by_cases hk : paren.kind = .leftParen
    · have hk' : paren'.kind = .leftParen := by simpa [Token.opens, hk] using hopens
      have hlist := argumentList_alike 0 hts
      simp only [statement, hk, hk', ↓reduceIte]
      generalize argumentList 0 ts = l, argumentList 0 us = m at hlist
      cases hlist with
      | closed arguments hrest =>
        refine ⟨?_, hrest⟩
        rw [htu]
        exact .ok ⟨name, arguments, _, t.line⟩ _
      | unclosed hrest => exact ⟨.error ⟨rfl, htu⟩, nextLine_alike hrest⟩
    · have hk' : paren'.kind ≠ .leftParen := by simpa [Token.opens, hk] using hopens
      simp only [statement, hk, hk', ↓reduceIte]
      exact ⟨.error ⟨rfl, htu⟩, nextLine_alike (.cons hp hts)⟩

structure Reading.Alike (r s : Reading) : Prop where
  nodes : List.Forall₂ Node.Alike r.nodes s.nodes
  faults : List.Forall₂ Fault.Alike r.faults s.faults

theorem Reading.Alike.withNode {r s : Reading} (h : r.Alike s) {n m : Node} (hn : n.Alike m) :
    (r.withNode n).Alike (s.withNode m) :=
  ⟨.cons hn h.nodes, h.faults⟩

theorem Reading.Alike.withFault {r s : Reading} (h : r.Alike s) {f g : Fault} (hf : f.Alike g) :
    (r.withFault f).Alike (s.withFault g) :=
  ⟨h.nodes, .cons hf h.faults⟩

/-- Alike tokens are read as alike nodes and faults. -/
theorem readFrom_alike (started : Bool) (ts us : List Token)
    (h : List.Forall₂ Token.Alike ts us) : (readFrom started ts).Alike (readFrom started us) := by
  fun_induction readFrom started ts generalizing us with
  | case1 started =>
    cases h
    rw [readFrom]
    exact ⟨.nil, .nil⟩
  | case2 started t ts hk =>
    obtain _ | ⟨ht, hts⟩ := h
    have hu := ht.kind.eq (by simp [hk]) (by simp [hk])
    rw [readFrom, hu, hk]
    exact ⟨.nil, .nil⟩
  | case3 t ts hk ih =>
    obtain _ | ⟨ht, hts⟩ := h
    have hu := ht.kind.eq (by simp [hk]) (by simp [hk])
    rw [readFrom, hu, hk]
    exact ih _ hts
  | case4 started t ts hk hs ih =>
    obtain _ | ⟨ht, hts⟩ := h
    have hu := ht.kind.eq (by simp [hk]) (by simp [hk])
    rw [readFrom, hu, hk, ht.line]
    simp only [hs]
    exact (ih _ hts).withNode (.blankLine t.line)
  | case5 started t ts text hk ih =>
    obtain _ | ⟨ht, hts⟩ := h
    have hkind := ht.kind
    rw [hk] at hkind
    obtain ⟨other, hu, htext⟩ := hkind
    rw [readFrom, hu, ht.line]
    exact (ih _ hts).withNode (.comment t.line htext)
  | case6 started t ts text hk ih =>
    obtain _ | ⟨ht, hts⟩ := h
    have hkind := ht.kind
    rw [hk] at hkind
    obtain ⟨other, hu, htext⟩ := hkind
    rw [readFrom, hu, ht.line]
    exact (ih _ hts).withNode (.comment t.line htext)
  | case7 started t ts name hk read command hr ih =>
    obtain _ | ⟨ht, hts⟩ := h
    have hu := ht.kind.eq (by simp [hk]) (by simp [hk])
    obtain ⟨hstatement, hrest⟩ := statement_alike name ht.line hts
    rw [readFrom, hu, hk]
    simp only [read] at hr
    rw [hr] at hstatement
    generalize hother : (statement name _ _).1 = other at hstatement
    cases hstatement with
    | ok _ span =>
      simp only [hother]
      exact (ih _ hrest).withNode (.invocation command span)
  | case8 started t ts name hk read fault hr ih =>
    obtain _ | ⟨ht, hts⟩ := h
    have hu := ht.kind.eq (by simp [hk]) (by simp [hk])
    obtain ⟨hstatement, hrest⟩ := statement_alike name ht.line hts
    rw [readFrom, hu, hk]
    simp only [read] at hr
    rw [hr] at hstatement
    generalize hother : (statement name _ _).1 = other at hstatement
    cases hstatement with
    | error hf =>
      simp only [hother]
      exact (ih _ hrest).withFault hf
  | case9 started t ts he hn hl hb hi ih =>
    obtain _ | ⟨ht, hts⟩ := h
    have hu := ht.kind.eq hl hb
    rw [readFrom_unexpected (by rwa [hu]) (by rwa [hu]) (by rwa [hu]) (by rwa [hu]) (by rwa [hu])]
    exact (ih _ (nextLine_alike hts)).withFault ⟨by rw [hu], ht.line⟩

theorem parse_alike {ts us : List Token} (h : List.Forall₂ Token.Alike ts us) :
    (∃ ns ms, parse ts = .ok ns ∧ parse us = .ok ms ∧ List.Forall₂ Node.Alike ns ms) ∨
    ∃ fs gs, parse ts = .error fs ∧ parse us = .error gs ∧ List.Forall₂ Fault.Alike fs gs := by
  obtain ⟨hnodes, hfaults⟩ := readFrom_alike false ts us h
  unfold parse
  generalize readFrom false ts = r, readFrom false us = s at hnodes hfaults
  obtain ⟨ns, fs⟩ := r
  obtain ⟨ms, gs⟩ := s
  cases hfaults with
  | nil => exact .inl ⟨ns, ms, rfl, rfl, hnodes⟩
  | cons hf hfs => exact .inr ⟨_, _, rfl, rfl, .cons hf hfs⟩

/-- The script as it is often written on Windows: every line end has a carriage return, and a byte
order mark may stand in front. -/
def onWindows (marked : Bool) (source : String) : String :=
  String.ofList ((if marked then [byteOrderMark] else []) ++ withReturns source.toList)

theorem withReturns_head {cs : List Char} (h : cs.head? ≠ some byteOrderMark) :
    (withReturns cs).head? ≠ some byteOrderMark := by
  cases cs with
  | nil => exact h
  | cons c cs =>
    rw [withReturns, List.flatMap_cons]
    split
    · simp [byteOrderMark]
    · simpa using h

theorem lexemes_onWindows {source : String} (hr : '\r' ∉ source.toList)
    (hm : source.toList.head? ≠ some byteOrderMark)
    (hl : ∀ l ∈ lexemes source.toList, l.Steady) (marked : Bool) :
    LexemesAlike (lexemes source.toList) (lexemes (onWindows marked source).toList) := by
  rw [lexemes_of_head hm] at hl ⊢
  have halike := lexemesFrom_alike _ (returned_withReturns hr) hl
  rw [onWindows, String.toList_ofList]
  cases marked with
  | false =>
    rw [if_neg (by decide), List.nil_append, lexemes_of_head (withReturns_head hm)]
    exact halike
  | true =>
    rw [if_pos rfl, List.singleton_append, lexemes, if_pos rfl]
    exact .gap (by decide) halike

/-- A script on Windows is scanned without a fault if the script is, into alike tokens. -/
theorem scan_onWindows {source : String} {tokens : List Token} (hr : '\r' ∉ source.toList)
    (hm : source.toList.head? ≠ some byteOrderMark) (hs : scan source = .ok tokens)
    (ht : ∀ t ∈ tokens, t.kind.OnOneLine) (marked : Bool) :
    ∃ others, scan (onWindows marked source) = .ok others ∧
      List.Forall₂ Token.Alike tokens others := by
  apply scan_alike hs
  apply lexemes_onWindows hr hm
  obtain ⟨hfaultless, rfl⟩ := scan_eq_ok.mp hs
  intro l hl
  refine ⟨hfaultless l hl, ?_⟩
  intro kind hk
  have hmem : kind ∈ (tokensAt .first (lexemes source.toList)).map Token.kind := by
    rw [tokensAt_kinds]
    exact List.mem_filterMap.mpr ⟨l, hl, hk⟩
  obtain ⟨t, htoken, rfl⟩ := List.mem_map.mp hmem
  exact ht t (List.mem_append_left _ htoken)

end CMakeManual.Script
