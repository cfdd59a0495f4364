import CMakeManual.Proofs.Script.Grammar
import CMakeManual.Proofs.Script.Spelling

/-! Nodes are read back from their canonical text, each from the place where it was written. -/
namespace CMakeManual.Script
open Text

/-- A command that its text gives back: parentheses among the arguments are balanced. -/
structure Invocation.WellFormed (c : Invocation) : Prop where
  name : NameText c.name.toList
  arguments : ∀ a ∈ c.arguments, ArgumentText a.kind a.text.toList
  nested : Nested Argument.opens Argument.closes 0 c.arguments

def Node.WellFormed : Node → Prop
  | .invocation c => c.WellFormed
  | .comment c => CommentText c.kind c.text.toList
  | .blankLine _ => True

/-- The node whose text starts at `p`. -/
def Node.writtenAt (p : Position) : Node → Node
  | .invocation c => .invocation { c with span := p.span c.chars, line := p.line }
  | .comment c => .comment { c with line := p.line }
  | .blankLine _ => .blankLine p.line

/-- The nodes that are written one a line from `p` on. -/
def writtenFrom (p : Position) : List Node → List Node
  | [] => []
  | n :: ns => n.writtenAt p :: writtenFrom (p.after (n.chars ++ ['\n'])) ns

def argumentLexemes : List Argument → List Lexeme
  | [] => []
  | a :: as => a.lexeme :: as.flatMap fun b => [⟨.gap, [' ']⟩, b.lexeme]

def Invocation.lexemes (c : Invocation) : List Lexeme :=
  ⟨.ident, c.name.toList⟩ :: ⟨.leftParen, ['(']⟩ ::
    (argumentLexemes c.arguments ++ [⟨.rightParen, [')']⟩])

def Node.lexemes : Node → List Lexeme
  | .invocation c => c.lexemes
  | .comment c => [⟨c.kind.form, c.text.toList⟩]
  | .blankLine _ => []

/-- A node's line. -/
def Node.lineLexemes (n : Node) : List Lexeme := n.lexemes ++ [⟨.newline, ['\n']⟩]

theorem Argument.lexeme_depthAfter (a : Argument) {depth : Nat}
    (h : a.closes.toNat ≤ a.opens.toNat + depth) :
    a.lexeme.form.depthAfter (depth + 1) = a.opens.toNat + depth - a.closes.toNat + 1 := by
  by_cases ho : a.text = "("
  · simp [lexeme, opens, closes, ho, Form.depthAfter]
    omega
  · by_cases hc : a.text = ")"
    · simp [opens, closes, hc] at h
      simp [lexeme, opens, closes, hc, Form.depthAfter]
      omega
    · cases hk : a.kind <;>
        simp [lexeme, opens, closes, ho, hc, hk, ArgumentKind.form, Form.depthAfter]

theorem lexemesFrom_closer (rest : List Char) :
    lexemesFrom 1 (')' :: rest) = ⟨.rightParen, [')']⟩ :: lexemesFrom 0 rest :=
  lexemesFrom_of_next (by simp [nextLexeme, isBlank])

theorem lexemesFrom_space {depth : Nat} (rest : List Char) :
    lexemesFrom depth (' ' :: rest) = ⟨.gap, [' ']⟩ :: lexemesFrom depth rest :=
  lexemesFrom_of_next (by simp [nextLexeme, isBlank])

/-- Arguments behind spaces, read inside `depth + 1` parentheses of which they close all but one. -/
theorem lexemesFrom_arguments {as : List Argument}
    (ha : ∀ a ∈ as, ArgumentText a.kind a.text.toList) {depth : Nat}
    (hn : Nested Argument.opens Argument.closes depth as) (rest : List Char) :
    lexemesFrom (depth + 1) (as.flatMap (fun a => ' ' :: a.text.toList) ++ ')' :: rest) =
      as.flatMap (fun a => [⟨.gap, [' ']⟩, a.lexeme]) ++
        ⟨.rightParen, [')']⟩ :: lexemesFrom 0 rest := by
  induction as generalizing depth with
  | nil =>
    obtain rfl := nested_nil.mp hn
    exact lexemesFrom_closer rest
  | cons a as ih =>
    obtain ⟨hc, hn⟩ := nested_cons.mp hn
    have hs : Separated (as.flatMap (fun a => ' ' :: a.text.toList) ++ ')' :: rest) := by
      cases as with
      | nil => exact ⟨')', rest, rfl, by decide⟩
      | cons b as => exact ⟨' ', _, rfl, by decide⟩
    rw [List.flatMap_cons, List.flatMap_cons, List.cons_append, List.cons_append,
      lexemesFrom_space, List.append_assoc, lexemesFrom_argument (ha a (by simp)) (by omega) hs,
      a.lexeme_depthAfter hc, ih (fun b hb => ha b (by simp [hb])) hn]
    rfl

theorem intercalate_space (t : List Char) (ts : List (List Char)) :
    [' '].intercalate (t :: ts) = t ++ ts.flatMap (fun u => ' ' :: u) := by
  induction ts generalizing t with
  | nil => simp
  | cons u ts ih => simp [ih]

theorem lexemesFrom_argumentList {as : List Argument}
    (ha : ∀ a ∈ as, ArgumentText a.kind a.text.toList)
    (hn : Nested Argument.opens Argument.closes 0 as) (rest : List Char) :
    lexemesFrom 1 ([' '].intercalate (as.map fun a => a.text.toList) ++ ')' :: rest) =
      argumentLexemes as ++ ⟨.rightParen, [')']⟩ :: lexemesFrom 0 rest := by
  cases as with
  | nil => exact lexemesFrom_closer rest
  | cons a as =>
    -- The first argument has no space before it: it is read with one, which is then taken off.
    have hl := lexemesFrom_arguments ha hn rest
    rw [List.flatMap_cons, List.cons_append, Nat.zero_add, List.cons_append,
      lexemesFrom_space] at hl
    rw [List.map_cons, intercalate_space, List.flatMap_map]
    exact (List.cons.inj hl).2

theorem lexemesFrom_invocation {c : Invocation} (h : c.WellFormed) (rest : List Char) :
    lexemesFrom 0 (c.chars ++ rest) = c.lexemes ++ lexemesFrom 0 rest := by
  have hopen (cs : List Char) :
      lexemesFrom 0 ('(' :: cs) = ⟨.leftParen, ['(']⟩ :: lexemesFrom 1 cs :=
    lexemesFrom_of_next (by simp [nextLexeme, isBlank])
  simp only [Invocation.chars, List.append_assoc, List.cons_append, List.nil_append]
  rw [lexemesFrom_name h.name, hopen, lexemesFrom_argumentList h.arguments h.nested]
  simp [Invocation.lexemes]

theorem lexemesFrom_lineEnd (rest : List Char) :
    lexemesFrom 0 ('\n' :: rest) = ⟨.newline, ['\n']⟩ :: lexemesFrom 0 rest :=
  lexemesFrom_of_next (by simp [nextLexeme])

/-- One line is scanned as the lexemes of its node. -/
theorem lexemesFrom_node {n : Node} (h : n.WellFormed) (rest : List Char) :
    lexemesFrom 0 (n.chars ++ '\n' :: rest) = n.lineLexemes ++ lexemesFrom 0 rest := by
  rw [Node.lineLexemes, List.append_assoc, List.singleton_append, ← lexemesFrom_lineEnd]
  cases n with
  | invocation c => exact lexemesFrom_invocation h _
  | comment c => exact lexemesFrom_comment h 0 rest
  | blankLine _ => rfl

theorem lexemesFrom_canonicalChars {ns : List Node} (h : ∀ n ∈ ns, n.WellFormed) :
    lexemesFrom 0 (canonicalChars ns) = ns.flatMap Node.lineLexemes := by
  induction ns with
  | nil => simp [lexemesFrom]
  | cons n ns ih =>
    rw [canonicalChars_cons, lexemesFrom_node (h n (by simp)),
      ih fun m hm => h m (by simp [hm])]
    rfl

/-- A text that starts with no byte order mark is scanned from its first character on. -/
theorem lexemes_of_head {cs : List Char} (h : cs.head? ≠ some byteOrderMark) :
    lexemes cs = lexemesFrom 0 cs := by
  cases cs with
  | nil => simp [lexemes, lexemesFrom]
  | cons c cs =>
    have hc : c ≠ byteOrderMark := by simpa using h
    simp [lexemes, hc]

theorem canonicalChars_head {ns : List Node} (h : ∀ n ∈ ns, n.WellFormed) :
    (canonicalChars ns).head? ≠ some byteOrderMark := by
  cases ns with
  | nil => simp
  | cons n ns =>
    rw [canonicalChars_cons]
    have hn := h n (by simp)
    cases n with
    | invocation c =>
      obtain ⟨d, r, hd, hs, -⟩ := hn.name
      simp only [Node.chars, Invocation.chars, hd, List.cons_append, List.head?_cons, ne_eq,
        Option.some.injEq]
      rintro rfl
      revert hs
      decide
    | comment c =>
      obtain ⟨r, hr⟩ := CommentText.head hn
      simp [Node.chars, hr, byteOrderMark]
    | blankLine => simp [Node.chars, byteOrderMark]

theorem lexemes_canonicalText {ns : List Node} (h : ∀ n ∈ ns, n.WellFormed) :
    lexemes (canonicalText ns).toList = ns.flatMap Node.lineLexemes := by
  rw [canonicalText, String.toList_ofList, lexemes_of_head (canonicalChars_head h),
    lexemesFrom_canonicalChars h]

/-- The token that an argument is. -/
def Argument.tokenKind (a : Argument) : TokenKind :=
  if a.opens then .leftParen
  else if a.closes then .rightParen
  else match a.kind with
    | .unquoted => .unquoted a.text
    | .quoted => .quoted a.text
    | .bracket => .bracket a.text

theorem Argument.lexeme_kind? (a : Argument) : a.lexeme.kind? = some a.tokenKind := by
  unfold Argument.lexeme Argument.tokenKind Lexeme.kind?
  split
  · rfl
  · split
    · rfl
    · cases a.kind <;> simp [ArgumentKind.form]

theorem argumentLexemes_kinds (as : List Argument) :
    (argumentLexemes as).filterMap Lexeme.kind? = as.map Argument.tokenKind := by
  have hgap : Lexeme.kind? ⟨.gap, [' ']⟩ = none := rfl
  have htail (bs : List Argument) :
      (bs.flatMap fun b => [⟨.gap, [' ']⟩, b.lexeme]).filterMap Lexeme.kind? =
        bs.map Argument.tokenKind := by
    induction bs with
    | nil => rfl
    | cons b bs ih => simp [hgap, b.lexeme_kind?, ih]
  cases as with
  | nil => rfl
  | cons a as => simp [argumentLexemes, a.lexeme_kind?, htail]

/-- A parenthesis that stands for itself is an unquoted argument. -/
theorem ArgumentText.kind_of_paren {kind : ArgumentKind} {c : Char} (h : ArgumentText kind [c])
    (hc : endsUnquoted c = true) : kind = .unquoted := by
  cases h with
  | unquoted => rfl
  | quoted => exact absurd hc (by decide)
  | bracket hb =>
    obtain ⟨r, hr, -⟩ := argumentLexeme_bracket hb
    obtain ⟨rfl, -⟩ := List.cons.inj hr
    exact absurd hc (by decide)
  | leftParen => rfl
  | rightParen => rfl

theorem Argument.tokenKind_argument? {a : Argument} (h : ArgumentText a.kind a.text.toList) :
    a.tokenKind.argument? = some a := by
  obtain ⟨kind, text⟩ := a
  unfold Argument.tokenKind
  split
  next ho =>
    obtain rfl : text = "(" := by simpa [Argument.opens] using ho
    have hp : ArgumentText kind ['('] := by simpa using h
    obtain rfl := hp.kind_of_paren (by decide)
    rfl
  next =>
    split
    next hc =>
      obtain rfl : text = ")" := by simpa [Argument.closes] using hc
      have hp : ArgumentText kind [')'] := by simpa using h
      obtain rfl := hp.kind_of_paren (by decide)
      rfl
    next => cases kind <;> rfl

theorem Argument.tokenKind_opens (a : Argument) :
    decide (a.tokenKind = .leftParen) = a.opens := by
  unfold Argument.tokenKind
  split
  next ho => simp [ho]
  next ho =>
    split
    · simp [ho]
    · cases a.kind <;> simp [ho]

theorem Argument.tokenKind_closes (a : Argument) :
    decide (a.tokenKind = .rightParen) = a.closes := by
  unfold Argument.tokenKind
  split
  next ho =>
    have hc : a.text = "(" := by simpa [Argument.opens] using ho
    simp [Argument.closes, hc]
  next =>
    split
    next hc => simp [hc]
    next hc => cases a.kind <;> simp [hc]

/-- The tokens of written arguments are a body. -/
theorem enclosed_arguments {as : List Argument}
    (hn : Nested Argument.opens Argument.closes 0 as) (p : Position) :
    Enclosed 0 (tokensAt p (argumentLexemes as)) := by
  refine ⟨?_, fun t ht => tokensAt_ne_endOfFile ht⟩
  have hk := (tokensAt_kinds p (argumentLexemes as)).trans (argumentLexemes_kinds as)
  refine (nested_map (fun k => decide (k = .leftParen)) (fun k => decide (k = .rightParen))
    Token.kind).mp ?_
  rw [hk, nested_map]
  simpa only [Argument.tokenKind_opens, Argument.tokenKind_closes] using hn

theorem filterMap_tokenKind {as : List Argument}
    (ha : ∀ a ∈ as, ArgumentText a.kind a.text.toList) :
    (as.map Argument.tokenKind).filterMap TokenKind.argument? = as := by
  induction as with
  | nil => rfl
  | cons a as ih =>
    simp [Argument.tokenKind_argument? (ha a (by simp)), ih fun b hb => ha b (by simp [hb])]

theorem bodyArguments_arguments {as : List Argument}
    (ha : ∀ a ∈ as, ArgumentText a.kind a.text.toList) (p : Position) :
    bodyArguments (tokensAt p (argumentLexemes as)) = as := by
  calc bodyArguments (tokensAt p (argumentLexemes as))
    _ = ((tokensAt p (argumentLexemes as)).map Token.kind).filterMap TokenKind.argument? := by
      rw [List.filterMap_map]
      rfl
    _ = (as.map Argument.tokenKind).filterMap TokenKind.argument? := by
      rw [tokensAt_kinds, argumentLexemes_kinds]
    _ = as := filterMap_tokenKind ha

theorem argumentLexemes_text (as : List Argument) :
    (argumentLexemes as).flatMap Lexeme.text =
      [' '].intercalate (as.map fun a => a.text.toList) := by
  cases as with
  | nil => rfl
  | cons a as =>
    rw [List.map_cons, intercalate_space, List.flatMap_map]
    simp [argumentLexemes, Argument.lexeme, List.flatMap_assoc]

theorem Node.lineLexemes_text (n : Node) :
    n.lineLexemes.flatMap Lexeme.text = n.chars ++ ['\n'] := by
  cases n with
  | invocation c =>
    simp [lineLexemes, lexemes, Invocation.lexemes, chars, Invocation.chars, argumentLexemes_text]
  | comment c => simp [lineLexemes, lexemes, chars]
  | blankLine => rfl

/-- An item that fills a line is read as one node. -/
theorem readFrom_item_line {i : Item} (hi : i.endsLine = false) {n : Node}
    (hn : i.node? [] = some n) {t : Token} (ht : t.kind = .newline) (rest : List Token) :
    readFrom false (i.tokens ++ t :: rest) = (readFrom false rest).withNode n := by
  have hitem := readFrom_item [] i (t :: rest)
  have hline : readFrom true (t :: rest) = readFrom false rest := by simp [readFrom, ht]
  rw [Item.lineStarted_append, hi, Item.lineStarted_nil, hn] at hitem
  simpa [hline, Reading.withNode] using hitem

/-- The tokens of a written command. -/
def Invocation.call (c : Invocation) (h : c.WellFormed) (p : Position) : Call :=
  let inside := (p.after c.name.toList).after ['(']
  let behind := inside.after ((argumentLexemes c.arguments).flatMap Lexeme.text)
  { name := c.name
    head := ⟨.ident c.name, p.span c.name.toList, p.line⟩
    opener := ⟨.leftParen, (p.after c.name.toList).span ['('], (p.after c.name.toList).line⟩
    body := tokensAt inside (argumentLexemes c.arguments)
    closer := ⟨.rightParen, behind.span [')'], behind.line⟩
    head_kind := rfl
    opener_kind := rfl
    closer_kind := rfl
    enclosed := enclosed_arguments h.nested inside }

theorem Invocation.call_tokens (c : Invocation) (h : c.WellFormed) (p : Position) :
    tokensAt p c.lexemes = (Item.call (c.call h p)).tokens := by
  simp [lexemes, call, Item.tokens, tokensAt_cons, tokensAt_append, Lexeme.kind?]

theorem Invocation.call_invocation (c : Invocation) (h : c.WellFormed) (p : Position) :
    (c.call h p).invocation = { c with span := p.span c.chars, line := p.line } := by
  have hs : (c.call h p).head.span.join (c.call h p).closer.span = p.span c.chars := by
    simp only [call, Position.span, Position.after, Span.join, argumentLexemes_text, chars,
      byteLength_append, byteLength_cons, byteLength_nil]
    simp
    omega
  simp only [Call.invocation, hs]
  simp [call, bodyArguments_arguments h.arguments]

/-- One line is read as its node. -/
theorem readFrom_node {n : Node} (h : n.WellFormed) (p : Position) (rest : List Token) :
    readFrom false (tokensAt p n.lineLexemes ++ rest) =
      (readFrom false rest).withNode (n.writtenAt p) := by
  have hend (q : Position) : tokensAt q [⟨.newline, ['\n']⟩] =
      [⟨.newline, q.span ['\n'], q.line⟩] := rfl
  rw [Node.lineLexemes, tokensAt_append, hend, List.append_assoc, List.singleton_append]
  cases n with
  | invocation c =>
    rw [Node.lexemes, c.call_tokens h p]
    apply readFrom_item_line rfl _ rfl rest
    simp [Item.node?, c.call_invocation h p, Node.writtenAt]
  | comment c =>
    obtain ⟨kind, text, line⟩ := c
    cases kind with
    | line =>
      have ht : tokensAt p (Node.comment ⟨.line, text, line⟩).lexemes =
          (Item.lineComment ⟨.lineComment text, p.span text.toList, p.line⟩ text rfl).tokens := by
        simp [Node.lexemes, CommentKind.form, tokensAt_cons, Lexeme.kind?, Item.tokens]
      rw [ht]
      exact readFrom_item_line rfl rfl rfl rest
    | bracket =>
      have ht : tokensAt p (Node.comment ⟨.bracket, text, line⟩).lexemes =
          (Item.bracketComment ⟨.bracketComment text, p.span text.toList, p.line⟩ text
            rfl).tokens := by
        simp [Node.lexemes, CommentKind.form, tokensAt_cons, Lexeme.kind?, Item.tokens]
      rw [ht]
      exact readFrom_item_line rfl rfl rfl rest
  | blankLine line => simp [Node.lexemes, readFrom, Node.writtenAt]

/-- Written lines are read as their nodes, to the end of the script. -/
theorem readFrom_nodes {ns : List Node} (h : ∀ n ∈ ns, n.WellFormed) (p : Position)
    {rest : List Token} (hr : EndsScript rest) :
    readFrom false (tokensAt p (ns.flatMap Node.lineLexemes) ++ rest) =
      ⟨writtenFrom p ns, []⟩ := by
  induction ns generalizing p with
  | nil => exact readFrom_of_endsScript hr false
  | cons n ns ih =>
    rw [List.flatMap_cons, tokensAt_append, List.append_assoc, readFrom_node (h n (by simp)),
      n.lineLexemes_text, ih fun m hm => h m (by simp [hm])]
    rfl

theorem argumentLexemes_faultless (as : List Argument) :
    ∀ l ∈ argumentLexemes as, l.cause? = none := by
  have hargument (a : Argument) : a.lexeme.cause? = none :=
    Lexeme.cause?_of_kind? a.lexeme_kind?
  have hgap : Lexeme.cause? ⟨.gap, [' ']⟩ = none := rfl
  cases as with
  | nil => simp [argumentLexemes]
  | cons a as =>
    intro l hl
    rcases List.mem_cons.mp hl with rfl | hl
    · exact hargument a
    · obtain ⟨b, -, hl⟩ := List.mem_flatMap.mp hl
      simp only [List.mem_cons, List.not_mem_nil, or_false] at hl
      rcases hl with rfl | rfl
      · exact hgap
      · exact hargument b

theorem Node.lineLexemes_faultless (n : Node) : ∀ l ∈ n.lineLexemes, l.cause? = none := by
  intro l hl
  rcases List.mem_append.mp hl with hl | hl
  · cases n with
    | invocation c =>
      simp only [lexemes, Invocation.lexemes, List.mem_cons, List.mem_append, List.not_mem_nil,
        or_false] at hl
      rcases hl with rfl | rfl | hl | rfl
      · rfl
      · rfl
      · exact argumentLexemes_faultless c.arguments l hl
      · rfl
    | comment c =>
      obtain rfl := List.mem_singleton.mp hl
      cases hk : c.kind <;> simp [Lexeme.cause?, CommentKind.form]
    | blankLine => simp [lexemes] at hl
  · obtain rfl := List.mem_singleton.mp hl
    rfl

/-- Nodes are read back from their canonical text, each at the place where it was written. -/
theorem readScript_canonicalText {ns : List Node} (h : ∀ n ∈ ns, n.WellFormed) :
    readScript (canonicalText ns) = .ok (writtenFrom .first ns) := by
  have hs : scan (canonicalText ns) = .ok (tokensAt .first (ns.flatMap Node.lineLexemes) ++
      [endToken (Position.first.after (canonicalText ns).toList)]) := by
    rw [scan_eq_ok, lexemes_canonicalText h]
    constructor
    · intro l hl
      obtain ⟨n, -, hl⟩ := List.mem_flatMap.mp hl
      exact n.lineLexemes_faultless l hl
    · rfl
  rw [readScript, hs]
  exact parse_eq_ok.mpr (readFrom_nodes h .first (by simp [EndsScript, endToken]))

/-- A bracket comment of two lines, a command with every kind of argument, a blank line and a
line comment. -/
theorem readScript_canonicalText_four :
    let nodes : List Node :=
      [.comment ⟨.bracket, "#[[a\nb]]", 0⟩,
        .invocation ⟨"if", [⟨.unquoted, "("⟩, ⟨.unquoted, "A\\ =\x22b c\x22"⟩, ⟨.unquoted, ")"⟩,
          ⟨.quoted, "\x22q\\\x22\x22"⟩, ⟨.bracket, "[=[x]=]"⟩], ⟨0, 0⟩, 0⟩,
        .blankLine 0, .comment ⟨.line, "# end", 0⟩]
    readScript (canonicalText nodes) = .ok
      [.comment ⟨.bracket, "#[[a\nb]]", 1⟩,
        .invocation ⟨"if", [⟨.unquoted, "("⟩, ⟨.unquoted, "A\\ =\x22b c\x22"⟩, ⟨.unquoted, ")"⟩,
          ⟨.quoted, "\x22q\\\x22\x22"⟩, ⟨.bracket, "[=[x]=]"⟩], ⟨9, 40⟩, 3⟩,
        .blankLine 4, .comment ⟨.line, "# end", 5⟩] := by
  intro nodes
  have hcomment : CommentText .bracket "#[[a\nb]]".toList :=
    .bracket (bracketText_of_not_mem 0 ['a', '\n', 'b'] (by decide))
  have hline : CommentText .line "# end".toList :=
    .line (r := [' ', 'e', 'n', 'd']) (by decide) fun level => by simp [bracketOpener]
  have hrun : QuotedTail ['b', ' ', 'c', '\x22'] :=
    .char (by decide) (by decide) (.char (by decide) (by decide)
      (.char (by decide) (by decide) .close))
  have hunquoted : ArgumentText .unquoted "A\\ =\x22b c\x22".toList := by
    refine .unquoted (by decide) (by decide) (fun level => by simp [bracketOpener]) ?_
    exact .char (by decide) (by decide) (by decide) (.escape ' '
      (.char (by decide) (by decide) (by decide) (.quoted hrun .nil)))
  have hquoted : ArgumentText .quoted "\x22q\\\x22\x22".toList :=
    .quoted (.char (by decide) (by decide) (.escape '\x22' .close))
  have hbracket : ArgumentText .bracket "[=[x]=]".toList :=
    .bracket (bracketText_of_not_mem 1 ['x'] (by decide))
  have hname : NameText "if".toList := ⟨'i', ['f'], rfl, rfl, List.forall_mem_singleton.2 rfl⟩
  have hcommand : Invocation.WellFormed ⟨"if", [⟨.unquoted, "("⟩, ⟨.unquoted, "A\\ =\x22b c\x22"⟩,
      ⟨.unquoted, ")"⟩, ⟨.quoted, "\x22q\\\x22\x22"⟩, ⟨.bracket, "[=[x]=]"⟩], ⟨0, 0⟩, 0⟩ := by
    refine ⟨hname, ?_, ?_⟩
    · simp only [List.forall_mem_cons]
      exact ⟨.leftParen, hunquoted, .rightParen, hquoted, hbracket, by simp⟩
    · simp [nested_cons, nested_nil, Argument.opens, Argument.closes]
  have h : ∀ n ∈ nodes, n.WellFormed := by
    simp only [nodes, List.forall_mem_cons]
    exact ⟨hcomment, hcommand, trivial, hline, by simp⟩
  exact readScript_canonicalText h

end CMakeManual.Script
