import CMakeManual.Proofs.Script.Recovery

/-! Layout inside an invocation makes no difference. Between the parentheses blanks, line ends and
comments are lexemes of their own that the reader passes over, so arguments set apart by any mix of
them are read as they are on one line with single spaces. -/
namespace CMakeManual.Script
open Text

/-- Blanks, line comments with the line ends behind them and bracket comments, in any order. -/
inductive Spacing : List Char → Prop where
  | nil : Spacing []
  | blank {c : Char} {r : List Char} : isBlank c = true → Spacing r → Spacing (c :: r)
  | lineComment {cs r : List Char} : CommentText .line cs → Spacing r → Spacing (cs ++ '\n' :: r)
  | bracketComment {cs r : List Char} : CommentText .bracket cs → Spacing r → Spacing (cs ++ r)

/-- A blank and any spacing behind it. -/
def IsSeparator (cs : List Char) : Prop := ∃ c r, cs = c :: r ∧ isBlank c = true ∧ Spacing r

/-- An argument and what stands between it and the one before. -/
structure SpacedArgument where
  separator : List Char
  argument : Argument

/-- An invocation as it is laid out; `separator` stands before the closing parenthesis. -/
structure SpacedInvocation where
  name : String
  arguments : List SpacedArgument
  separator : List Char

def SpacedArgument.chars (a : SpacedArgument) : List Char := a.separator ++ a.argument.text.toList

namespace SpacedInvocation

def text (c : SpacedInvocation) : String :=
  String.ofList (c.name.toList ++ '(' ::
    (c.arguments.flatMap SpacedArgument.chars ++ (c.separator ++ [')'])))

def plainArguments (c : SpacedInvocation) : List Argument :=
  c.arguments.map SpacedArgument.argument

/-- The same invocation on one line, with single spaces between its arguments. -/
def onOneLine (c : SpacedInvocation) : String :=
  String.ofList (Invocation.chars ⟨c.name, c.plainArguments, ⟨0, 0⟩, 1⟩)

structure WellFormed (c : SpacedInvocation) : Prop where
  name : NameText c.name.toList
  arguments : ∀ a ∈ c.arguments,
    IsSeparator a.separator ∧ ArgumentText a.argument.kind a.argument.text.toList
  nested : Nested Argument.opens Argument.closes 0 c.plainArguments
  separator : IsSeparator c.separator

end SpacedInvocation

/-- A blank or a comment. -/
def Lexeme.IsSpacing (l : Lexeme) : Prop :=
  l.form = .gap ∨ l.form = .lineComment ∨ l.form = .bracketComment

/-- A bracket comment is one lexeme, whatever follows it. -/
theorem lexemesFrom_bracketComment {cs : List Char} (h : CommentText .bracket cs) (depth : Nat)
    (rest : List Char) :
    lexemesFrom depth (cs ++ rest) = ⟨.bracketComment, cs⟩ :: lexemesFrom depth rest := by
  cases h with
  | bracket hb =>
    obtain ⟨level, body, rfl, hfirst⟩ := hb
    have hblank : isBlank '#' = false := by decide
    have ho := bracketOpen?_opener level (body ++ (bracketCloser level ++ rest))
    have hl := bracketLexeme_of_text hfirst .bracketComment ['#'] rest
    rw [List.cons_append, List.append_assoc, List.append_assoc]
    apply lexemesFrom_of_next
    simp [nextLexeme, commentLexeme, hblank, ho, hl]

/-- Inside parentheses every blank is a gap, line ends too. -/
theorem lexemesFrom_blank {c : Char} (hc : isBlank c = true) {depth : Nat} (hd : 0 < depth)
    (rest : List Char) : lexemesFrom depth (c :: rest) = ⟨.gap, [c]⟩ :: lexemesFrom depth rest := by
  apply lexemesFrom_of_next
  by_cases hn : c = '\n'
  · simp [nextLexeme, hn, Nat.ne_of_gt hd]
  · simp [nextLexeme, hn, hc]

theorem lexemesFrom_spacing {cs : List Char} (h : Spacing cs) {depth : Nat} (hd : 0 < depth)
    (rest : List Char) :
    ∃ ls, (∀ l ∈ ls, l.IsSpacing) ∧
      lexemesFrom depth (cs ++ rest) = ls ++ lexemesFrom depth rest := by
  induction h with
  | nil => exact ⟨[], by simp, rfl⟩
  | @blank c r hc _ ih =>
    obtain ⟨ls, hls, hr⟩ := ih
    refine ⟨⟨.gap, [c]⟩ :: ls, ?_, ?_⟩
    · simpa [Lexeme.IsSpacing] using hls
    · rw [List.cons_append, lexemesFrom_blank hc hd, hr]
      rfl
  | @lineComment cs r hc _ ih =>
    obtain ⟨ls, hls, hr⟩ := ih
    refine ⟨⟨.lineComment, cs⟩ :: ⟨.gap, ['\n']⟩ :: ls, ?_, ?_⟩
    · simpa [Lexeme.IsSpacing] using hls
    · rw [List.append_assoc, List.cons_append, lexemesFrom_comment hc,
        lexemesFrom_blank (by decide) hd, hr]
      rfl
  | @bracketComment cs r hc _ ih =>
    obtain ⟨ls, hls, hr⟩ := ih
    refine ⟨⟨.bracketComment, cs⟩ :: ls, ?_, ?_⟩
    · simpa [Lexeme.IsSpacing] using hls
    · rw [List.append_assoc, lexemesFrom_bracketComment hc, hr]
      rfl

theorem IsSeparator.spacing {cs : List Char} (h : IsSeparator cs) : Spacing cs := by
  obtain ⟨c, r, rfl, hc, hr⟩ := h
  exact .blank hc hr

/-- A separator ends the argument before it. -/
theorem IsSeparator.separated {cs : List Char} (h : IsSeparator cs) (rest : List Char) :
    Separated (cs ++ rest) := by
  obtain ⟨c, r, rfl, hc, -⟩ := h
  exact ⟨c, r ++ rest, rfl, by simp [endsUnquoted, hc]⟩

/-- The lexemes of arguments, with spacing anywhere between them. -/
inductive LaidOut : List Lexeme → List Argument → Prop where
  | nil : LaidOut [] []
  | spacing {l : Lexeme} {ls : List Lexeme} {as : List Argument} :
      l.IsSpacing → LaidOut ls as → LaidOut (l :: ls) as
  | argument {a : Argument} {ls : List Lexeme} {as : List Argument} :
      ArgumentText a.kind a.text.toList → LaidOut ls as → LaidOut (a.lexeme :: ls) (a :: as)

theorem LaidOut.prepend {ls ms : List Lexeme} {as : List Argument} (hl : ∀ l ∈ ls, l.IsSpacing)
    (h : LaidOut ms as) : LaidOut (ls ++ ms) as := by
  induction ls with
  | nil => exact h
  | cons l ls ih => exact .spacing (hl l (by simp)) (ih fun m hm => hl m (by simp [hm]))

/-- Spaced arguments and the separator behind them, read inside `depth + 1` parentheses of which
they close all but one. -/
theorem lexemesFrom_spaced {as : List SpacedArgument}
    (ha : ∀ a ∈ as, IsSeparator a.separator ∧ ArgumentText a.argument.kind a.argument.text.toList)
    {depth : Nat}
    (hn : Nested Argument.opens Argument.closes depth (as.map SpacedArgument.argument))
    {last : List Char} (hlast : IsSeparator last) (rest : List Char) :
    ∃ ls, LaidOut ls (as.map SpacedArgument.argument) ∧
      lexemesFrom (depth + 1) (as.flatMap SpacedArgument.chars ++ (last ++ ')' :: rest)) =
        ls ++ ⟨.rightParen, [')']⟩ :: lexemesFrom 0 rest := by
  induction as generalizing depth with
  | nil =>
    obtain rfl := nested_nil.mp hn
    obtain ⟨ls, hls, hl⟩ := lexemesFrom_spacing hlast.spacing Nat.one_pos (')' :: rest)
    refine ⟨ls, ?_, ?_⟩
    · simpa using LaidOut.nil.prepend hls
    · rw [List.flatMap_nil, List.nil_append, hl, lexemesFrom_closer]
  | cons a as ih =>
    obtain ⟨hseparator, htext⟩ := ha a (by simp)
    obtain ⟨hc, hn⟩ := nested_cons.mp hn
    obtain ⟨ms, hms, hm⟩ := ih (fun b hb => ha b (by simp [hb])) hn
    have hs : Separated (as.flatMap SpacedArgument.chars ++ (last ++ ')' :: rest)) := by
      cases as with
      | nil => exact hlast.separated _
      | cons b as =>
        rw [List.flatMap_cons, SpacedArgument.chars, List.append_assoc, List.append_assoc]
        exact (ha b (by simp)).1.separated _
    obtain ⟨ls, hls, hl⟩ := lexemesFrom_spacing hseparator.spacing (Nat.succ_pos depth)
      (a.argument.text.toList ++ (as.flatMap SpacedArgument.chars ++ (last ++ ')' :: rest)))
    refine ⟨ls ++ a.argument.lexeme :: ms, LaidOut.prepend hls (.argument htext hms), ?_⟩
    rw [List.flatMap_cons, SpacedArgument.chars, List.append_assoc, List.append_assoc, hl,
      lexemesFrom_argument htext (Nat.succ_pos depth) hs, a.argument.lexeme_depthAfter hc, hm,
      List.append_assoc]
    rfl

/-- Arguments on one line are laid out. -/
theorem laidOut_argumentLexemes {as : List Argument}
    (ha : ∀ a ∈ as, ArgumentText a.kind a.text.toList) : LaidOut (argumentLexemes as) as := by
  have hspaced {bs : List Argument} (hb : ∀ b ∈ bs, ArgumentText b.kind b.text.toList) :
      LaidOut (bs.flatMap fun b => [⟨.gap, [' ']⟩, b.lexeme]) bs := by
    induction bs with
    | nil => exact .nil
    | cons b bs ih =>
      have hrest := ih fun d hd => hb d (by simp [hd])
      exact .spacing (.inl rfl) (.argument (hb b (by simp)) hrest)
  cases as with
  | nil => exact .nil
  | cons a as => exact .argument (ha a (by simp)) (hspaced fun b hb => ha b (by simp [hb]))

/-- What is passed over is no fault, and its token, if it has one, is neither an argument nor a
parenthesis. -/
theorem Lexeme.IsSpacing.passed {l : Lexeme} (h : l.IsSpacing) :
    l.cause? = none ∧ ∀ kind ∈ l.kind?, kind.argument? = none ∧ kind ≠ .leftParen ∧
      kind ≠ .rightParen ∧ kind ≠ .endOfFile := by
  rcases h with h | h | h <;> simp [Lexeme.cause?, Lexeme.kind?, h, TokenKind.argument?]

theorem tokensAt_of_kind? {l : Lexeme} {kind : TokenKind} (h : l.kind? = some kind) (p : Position)
    (ls : List Lexeme) :
    tokensAt p (l :: ls) = ⟨kind, p.span l.text, p.line⟩ :: tokensAt (p.after l.text) ls := by
  rw [tokensAt_cons, h]
  rfl

namespace LaidOut
variable {ls : List Lexeme} {as : List Argument}

theorem faultless (h : LaidOut ls as) : ∀ l ∈ ls, l.cause? = none := by
  induction h with
  | nil => simp
  | spacing hl _ ih => simpa using ⟨hl.passed.1, ih⟩
  | @argument a ls as _ _ ih => simpa using ⟨Lexeme.cause?_of_kind? a.lexeme_kind?, ih⟩

/-- The tokens are a body. -/
theorem enclosed (h : LaidOut ls as) {depth : Nat}
    (hn : Nested Argument.opens Argument.closes depth as) (p : Position) :
    Enclosed depth (tokensAt p ls) := by
  induction h generalizing depth p with
  | nil => exact enclosed_nil.mpr (nested_nil.mp hn)
  | @spacing l ls as hl _ ih =>
    cases hk : l.kind? with
    | none =>
      rw [tokensAt_cons, hk]
      exact ih hn _
    | some kind =>
      obtain ⟨-, hleft, hright, hend⟩ := hl.passed.2 kind hk
      rw [tokensAt_of_kind? hk, enclosed_cons]
      simpa [Token.opens, Token.closes, hleft, hright, hend] using ih hn _
  | @argument a ls as ha _ ih =>
    obtain ⟨hc, hn⟩ := nested_cons.mp hn
    have hend : a.tokenKind ≠ .endOfFile := by
      rintro he
      simpa [he, TokenKind.argument?] using Argument.tokenKind_argument? ha
    rw [tokensAt_of_kind? a.lexeme_kind?, enclosed_cons]
    simp only [Token.opens, Token.closes, Argument.tokenKind_opens, Argument.tokenKind_closes]
    exact ⟨hend, hc, ih hn _⟩

theorem bodyArguments (h : LaidOut ls as) (p : Position) :
    bodyArguments (tokensAt p ls) = as := by
  induction h generalizing p with
  | nil => rfl
  | @spacing l ls as hl _ ih =>
    cases hk : l.kind? with
    | none =>
      rw [tokensAt_cons, hk]
      exact ih _
    | some kind =>
      have hnone := (hl.passed.2 kind hk).1
      have hrest := ih (p.after l.text)
      simpa [tokensAt_of_kind? hk, Script.bodyArguments, hnone] using hrest
  | @argument a ls as ha _ ih =>
    have hself := Argument.tokenKind_argument? ha
    have hrest := ih (p.after a.lexeme.text)
    simpa [tokensAt_of_kind? a.lexeme_kind?, Script.bodyArguments, hself] using hrest

end LaidOut

/-- A script that is one invocation with its arguments laid out in any way. -/
theorem readScript_of_laidOut {source name : String} {ls : List Lexeme} {as : List Argument}
    (hl : lexemes source.toList = ⟨.ident, name.toList⟩ :: ⟨.leftParen, ['(']⟩ ::
      (ls ++ [⟨.rightParen, [')']⟩]))
    (h : LaidOut ls as) (hn : Nested Argument.opens Argument.closes 0 as) :
    readScript source = .ok [.invocation ⟨name, as, ⟨0, source.utf8ByteSize⟩, 1⟩] := by
  let inside := (Position.first.after name.toList).after ['(']
  let behind := inside.after (ls.flatMap Lexeme.text)
  let call : Call :=
    { name
      head := ⟨.ident name, Position.first.span name.toList, 1⟩
      opener := ⟨.leftParen, (Position.first.after name.toList).span ['('],
        (Position.first.after name.toList).line⟩
      body := tokensAt inside ls
      closer := ⟨.rightParen, behind.span [')'], behind.line⟩
      head_kind := rfl
      opener_kind := rfl
      closer_kind := rfl
      enclosed := h.enclosed hn inside }
  have htokens : tokensAt .first (lexemes source.toList) = (Item.call call).tokens := by
    rw [hl]
    simp [tokensAt_cons, tokensAt_append, Lexeme.kind?, Item.tokens, call, inside, behind,
      Position.first]
  have hfaultless : ∀ l ∈ lexemes source.toList, l.cause? = none := by
    rw [hl]
    simpa [Lexeme.cause?, or_imp, forall_and] using h.faultless
  have hsize : source.utf8ByteSize = byteLength (name.toList ++ '(' ::
      (ls.flatMap Lexeme.text ++ [')'])) := by
    rw [← byteLength_toList, ← lexemes_text source.toList, hl]
    simp
  have hspan : call.head.span.join call.closer.span = ⟨0, source.utf8ByteSize⟩ := by
    simp only [hsize, call, inside, behind, Span.join, Position.span, Position.after,
      Position.first, byteLength_append, byteLength_cons, byteLength_nil, Span.mk.injEq]
    omega
  have hcommand : call.invocation = ⟨name, as, ⟨0, source.utf8ByteSize⟩, 1⟩ := by
    rw [Call.invocation, hspan]
    simp only [call, h.bodyArguments]
  have hend : EndsScript [endToken (Position.first.after source.toList)] := by
    simp [EndsScript, endToken]
  have hread := readFrom_items [] [.call call] hend
  rw [readScript_of_scan (scan_eq_ok.mpr ⟨hfaultless, rfl⟩), parse_eq_ok, htokens]
  simpa [nodesBehind, Item.node?, hcommand] using hread

theorem NameText.head_ne_mark {cs : List Char} (h : NameText cs) (rest : List Char) :
    (cs ++ rest).head? ≠ some byteOrderMark := by
  obtain ⟨c, r, rfl, hc, -⟩ := h
  rw [List.cons_append, List.head?_cons, ne_eq, Option.some.injEq]
  rintro rfl
  revert hc
  decide

theorem SpacedInvocation.lexemes_text {c : SpacedInvocation} (h : c.WellFormed) :
    ∃ ls, LaidOut ls c.plainArguments ∧
      lexemes c.text.toList = ⟨.ident, c.name.toList⟩ :: ⟨.leftParen, ['(']⟩ ::
        (ls ++ [⟨.rightParen, [')']⟩]) := by
  have hopen (cs : List Char) :
      lexemesFrom 0 ('(' :: cs) = ⟨.leftParen, ['(']⟩ :: lexemesFrom 1 cs :=
    lexemesFrom_of_next (by simp [nextLexeme, isBlank])
  obtain ⟨ls, hls, hl⟩ := lexemesFrom_spaced h.arguments h.nested h.separator []
  refine ⟨ls, hls, ?_⟩
  rw [text, String.toList_ofList, lexemes_of_head (h.name.head_ne_mark _),
    lexemesFrom_name h.name, hopen, hl, lexemesFrom]

/-- However its arguments are laid out, an invocation is read as the one command that it is on one
line. -/
theorem readScript_spaced {c : SpacedInvocation} (h : c.WellFormed) :
    readScript c.text =
      .ok [.invocation ⟨c.name, c.plainArguments, ⟨0, c.text.utf8ByteSize⟩, 1⟩] ∧
    readScript c.onOneLine =
      .ok [.invocation ⟨c.name, c.plainArguments, ⟨0, c.onOneLine.utf8ByteSize⟩, 1⟩] := by
  constructor
  · obtain ⟨ls, hls, hl⟩ := SpacedInvocation.lexemes_text h
    exact readScript_of_laidOut hl hls h.nested
  · have ha : ∀ a ∈ c.plainArguments, ArgumentText a.kind a.text.toList := by
      intro a ha
      obtain ⟨b, hb, rfl⟩ := List.mem_map.mp ha
      exact (h.arguments b hb).2
    have hcommand : Invocation.WellFormed ⟨c.name, c.plainArguments, ⟨0, 0⟩, 1⟩ :=
      ⟨h.name, ha, h.nested⟩
    refine readScript_of_laidOut ?_ (laidOut_argumentLexemes ha) h.nested
    have hl := lexemesFrom_invocation hcommand []
    rw [List.append_nil, lexemesFrom, List.append_nil] at hl
    have hhead : (Invocation.chars ⟨c.name, c.plainArguments, ⟨0, 0⟩, 1⟩).head? ≠
        some byteOrderMark := h.name.head_ne_mark _
    rw [SpacedInvocation.onOneLine, String.toList_ofList, lexemes_of_head hhead, hl]
    rfl

/-- Comments with a parenthesis and a quote in them stand between the arguments, two of which are
parentheses that belong together. -/
theorem readScript_spaced_comments :
    readScript "set(\n  A # it (\x22\n  \x22x y\x22 ( #[[ ) ]]\n  [[z]] )\n)" =
        .ok [.invocation ⟨"set", [⟨.unquoted, "A"⟩, ⟨.quoted, "\x22x y\x22"⟩, ⟨.unquoted, "("⟩,
          ⟨.bracket, "[[z]]"⟩, ⟨.unquoted, ")"⟩], ⟨0, 47⟩, 1⟩] ∧
      readScript "set(A \x22x y\x22 ( [[z]] ))" =
        .ok [.invocation ⟨"set", [⟨.unquoted, "A"⟩, ⟨.quoted, "\x22x y\x22"⟩, ⟨.unquoted, "("⟩,
          ⟨.bracket, "[[z]]"⟩, ⟨.unquoted, ")"⟩], ⟨0, 22⟩, 1⟩] := by
  let c : SpacedInvocation :=
    { name := "set"
      arguments := [⟨"\n  ".toList, ⟨.unquoted, "A"⟩⟩,
        ⟨" # it (\x22\n  ".toList, ⟨.quoted, "\x22x y\x22"⟩⟩, ⟨" ".toList, ⟨.unquoted, "("⟩⟩,
        ⟨" #[[ ) ]]\n  ".toList, ⟨.bracket, "[[z]]"⟩⟩, ⟨" ".toList, ⟨.unquoted, ")"⟩⟩]
      separator := "\n".toList }
  have hrest : ∀ d ∈ ['e', 't'], continuesName d = true :=
    List.forall_mem_cons.mpr ⟨rfl, List.forall_mem_singleton.mpr rfl⟩
  have hname : NameText "set".toList := ⟨'s', ['e', 't'], rfl, rfl, hrest⟩
  have hline : CommentText .line "# it (\x22".toList :=
    .line (r := " it (\x22".toList) (by decide) fun level => by simp [bracketOpener]
  have hbracket : CommentText .bracket "#[[ ) ]]".toList :=
    .bracket (bracketText_of_not_mem 0 " ) ".toList (by decide))
  have hblanks : Spacing "  ".toList := .blank (by decide) (.blank (by decide) .nil)
  have hunquoted : ArgumentText .unquoted "A".toList :=
    .unquoted (by decide) (by decide) (fun level => by simp [bracketOpener])
      (.char (by decide) (by decide) (by decide) .nil)
  have hquoted : ArgumentText .quoted "\x22x y\x22".toList :=
    .quoted (.char (by decide) (by decide) (.char (by decide) (by decide)
      (.char (by decide) (by decide) .close)))
  have hargument : ArgumentText .bracket "[[z]]".toList :=
    .bracket (bracketText_of_not_mem 0 ['z'] (by decide))
  have h : c.WellFormed := by
    refine ⟨hname, ?_, ?_, ⟨'\n', [], rfl, by decide, .nil⟩⟩
    · simp only [c, List.forall_mem_cons]
      refine ⟨⟨⟨'\n', "  ".toList, rfl, by decide, hblanks⟩, hunquoted⟩,
        ⟨⟨' ', "# it (\x22".toList ++ '\n' :: "  ".toList, rfl, by decide,
          .lineComment hline hblanks⟩, hquoted⟩,
        ⟨⟨' ', [], rfl, by decide, .nil⟩, .leftParen⟩,
        ⟨⟨' ', "#[[ ) ]]".toList ++ '\n' :: "  ".toList, rfl, by decide,
          .bracketComment hbracket (.blank (by decide) hblanks)⟩, hargument⟩,
        ⟨⟨' ', [], rfl, by decide, .nil⟩, .rightParen⟩, by simp⟩
    · simp [c, SpacedInvocation.plainArguments, nested_cons, nested_nil, Argument.opens,
        Argument.closes]
  have htext : c.text = "set(\n  A # it (\x22\n  \x22x y\x22 ( #[[ ) ]]\n  [[z]] )\n)" := by
    decide +kernel
  have hplain : c.onOneLine = "set(A \x22x y\x22 ( [[z]] ))" := by decide +kernel
  have hread := readScript_spaced h
  rw [htext, hplain] at hread
  exact hread

end CMakeManual.Script
