import CMakeManual.Proofs.Script.Joining
import Mathlib.Data.List.Induction

/-! Reading of two scripts with a line end between them. A statement never reaches over a line end
outside parentheses, and a faulty one is given up there, so what is wrong in one script neither
hides nor causes anything in the other. -/
namespace CMakeManual.Script
open Text

/-- Read inside `depth` parentheses, the tokens close them all at their end, their line ends stand
outside parentheses and none of them ends the file. -/
def WholeLines (depth : Nat) : List Token → Prop
  | [] => depth = 0
  | t :: ts =>
      (t.kind = .newline → depth = 0) ∧ t.kind ≠ .endOfFile ∧
        WholeLines (t.kind.depthAfter depth) ts

theorem WholeLines.tail {t : Token} {ts : List Token} (h : WholeLines 0 (t :: ts))
    (ht : t.kind.depthAfter 0 = 0) : WholeLines 0 ts := by
  rw [← ht]
  exact h.2.2

/-- The tokens that a faulty statement may leave to be read next. -/
def StopsStatement (ts : List Token) : Prop := ∀ t ∈ ts.head?, endsStatement t = true

/-- No line end is among the tokens. -/
def OnOneLine (ts : List Token) : Prop := ∀ t ∈ ts, t.kind ≠ .newline

/-- The line behind the tokens holds something, if it did so before them when `started` is set. -/
def startedBehind (started : Bool) (ts : List Token) : Bool :=
  ts.foldl (fun _ t => t.kind ≠ .newline) started

@[simp] theorem startedBehind_cons (started : Bool) (t : Token) (ts : List Token) :
    startedBehind started (t :: ts) = startedBehind (t.kind ≠ .newline) ts := rfl

theorem startedBehind_append (started : Bool) (ts us : List Token) :
    startedBehind started (ts ++ us) = startedBehind (startedBehind started ts) us := by
  rw [startedBehind, List.foldl_append]
  rfl

theorem startedBehind_onOneLine {ts : List Token} (h : OnOneLine ts) :
    startedBehind true ts = true := by
  induction ts with
  | nil => rfl
  | cons t ts ih =>
    rw [startedBehind_cons, decide_eq_true (h t (by simp))]
    exact ih fun u hu => h u (by simp [hu])

/-- Inside parentheses a token that does not close the outermost one keeps the count above
zero. -/
theorem Token.depthAfter_succ {depth : Nat} {t : Token}
    (h : t.kind = .rightParen → depth ≠ 0) :
    t.closes.toNat ≤ t.opens.toNat + depth ∧
      t.kind.depthAfter (depth + 1) = t.opens.toNat + depth - t.closes.toNat + 1 := by
  cases hk : t.kind with
  | leftParen =>
    simp [opens, closes, hk, TokenKind.depthAfter]
    omega
  | rightParen =>
    have := h hk
    simp [opens, closes, hk, TokenKind.depthAfter]
    omega
  | _ => simp [opens, closes, hk, TokenKind.depthAfter]

/-- The body of an invocation ends among whole lines, and no line end stands in it. -/
theorem WholeLines.body {depth : Nat} {ts : List Token} (h : WholeLines (depth + 1) ts) :
    ∃ body close rest, ts = body ++ close :: rest ∧ close.kind = .rightParen ∧
      Enclosed depth body ∧ OnOneLine body ∧ WholeLines 0 rest := by
  induction ts generalizing depth with
  | nil => exact absurd h (Nat.succ_ne_zero depth)
  | cons t ts ih =>
    obtain ⟨hn, he, hr⟩ := h
    by_cases hlast : t.kind = .rightParen ∧ depth = 0
    · obtain ⟨hk, rfl⟩ := hlast
      rw [hk] at hr
      exact ⟨[], t, ts, rfl, hk, enclosed_nil.mpr rfl, by simp [OnOneLine], hr⟩
    · obtain ⟨hle, hdepth⟩ := Token.depthAfter_succ fun hk hd => hlast ⟨hk, hd⟩
      rw [hdepth] at hr
      obtain ⟨body, close, rest, rfl, hc, hb, hl, hw⟩ := ih hr
      refine ⟨t :: body, close, rest, rfl, hc, enclosed_cons.mpr ⟨he, hle, hb⟩, ?_, hw⟩
      intro u hu
      rcases List.mem_cons.mp hu with rfl | hu
      · exact fun hk => Nat.succ_ne_zero depth (hn hk)
      · exact hl u hu

/-- What is left at a place in whole lines: whole lines again, behind tokens on one line. -/
structure LeavesLines (ts rest : List Token) : Prop where
  skipped : ∃ front, ts = front ++ rest ∧ OnOneLine front
  lines : WholeLines 0 rest

theorem nextLine_cons (t : Token) (ts : List Token) :
    nextLine (t :: ts) = if endsStatement t then t :: ts else nextLine ts := by
  cases h : endsStatement t <;> simp [nextLine, h]

/-- A statement that is given up is left at the next line end. -/
theorem WholeLines.nextLine_append {depth : Nat} {ts : List Token} (h : WholeLines depth ts) :
    LeavesLines ts (nextLine ts) ∧
      ∀ rest, StopsStatement rest → nextLine (ts ++ rest) = nextLine ts ++ rest := by
  induction ts generalizing depth with
  | nil =>
    refine ⟨⟨⟨[], rfl, by simp [OnOneLine]⟩, rfl⟩, ?_⟩
    intro rest hrest
    cases rest with
    | nil => rfl
    | cons t rest => simp [nextLine, hrest t (by simp)]
  | cons t ts ih =>
    obtain ⟨hn, he, hr⟩ := h
    obtain ⟨⟨⟨front, hfront, hline⟩, hlines⟩, happend⟩ := ih hr
    by_cases hk : t.kind = .newline
    · have hs : endsStatement t = true := by simp [endsStatement, hk]
      obtain rfl := hn hk
      rw [nextLine_cons, if_pos hs]
      refine ⟨⟨⟨[], rfl, by simp [OnOneLine]⟩, hn, he, hr⟩, ?_⟩
      intro rest _
      rw [List.cons_append, nextLine_cons, if_pos hs]
    · have hs : endsStatement t ≠ true := by simp [endsStatement, hk, he]
      rw [nextLine_cons, if_neg hs]
      refine ⟨⟨⟨t :: front, by rw [List.cons_append, ← hfront], ?_⟩, hlines⟩, ?_⟩
      · simpa [OnOneLine, hk] using hline
      · intro rest hrest
        rw [List.cons_append, nextLine_cons, if_neg hs, happend rest hrest]

/-- A statement among whole lines is read without a look at what follows them. -/
theorem WholeLines.statement_append {ts : List Token} (h : WholeLines 0 ts) (name : String)
    (t : Token) :
    LeavesLines ts (statement name t ts).2 ∧
      ∀ rest, StopsStatement rest →
        statement name t (ts ++ rest) =
          ((statement name t ts).1, (statement name t ts).2 ++ rest) := by
  cases ts with
  | nil =>
    refine ⟨⟨⟨[], rfl, by simp [OnOneLine]⟩, rfl⟩, ?_⟩
    intro rest hrest
    cases rest with
    | nil => rfl
    | cons u rest =>
      have hu := hrest u (by simp)
      have hp : u.kind ≠ .leftParen := by
        intro hk
        simp [endsStatement, hk] at hu
      simp [statement, hp, nextLine_cons, hu]
  | cons paren ts =>
    by_cases hp : paren.kind = .leftParen
    · obtain ⟨-, -, hr⟩ := h
      rw [hp] at hr
      obtain ⟨body, close, lines, rfl, hc, hb, hl, hw⟩ := WholeLines.body hr
      have hread (rest : List Token) : statement name t (paren :: (body ++ close :: rest)) =
          (.ok ⟨name, bodyArguments body, t.span.join close.span, t.line⟩, rest) := by
        simp [statement, hp, argumentList_of_enclosed hb hc]
      refine ⟨⟨⟨paren :: (body ++ [close]), ?_, ?_⟩, ?_⟩, ?_⟩
      · rw [hread]
        simp
      · intro u hu
        simp only [List.mem_cons, List.mem_append, List.not_mem_nil, or_false] at hu
        rcases hu with rfl | hu | rfl
        · simp [hp]
        · exact hl u hu
        · simp [hc]
      · rw [hread]
        exact hw
      · intro rest _
        rw [hread, List.cons_append, List.append_assoc, List.cons_append, hread]
    · obtain ⟨hleft, happend⟩ := h.nextLine_append
      have hread (us : List Token) : statement name t (paren :: us) =
          (.error ⟨.missingOpenParen name, t.span, t.line⟩, nextLine (paren :: us)) := by
        simp [statement, hp]
      rw [hread]
      refine ⟨hleft, ?_⟩
      intro rest hrest
      rw [List.cons_append, hread, ← List.cons_append, happend rest hrest]

/-- What two parts of a token list give together. -/
def Reading.append (r s : Reading) : Reading := ⟨r.nodes ++ s.nodes, r.faults ++ s.faults⟩

theorem Reading.withNode_append (n : Node) (r s : Reading) :
    (r.withNode n).append s = (r.append s).withNode n := rfl

theorem Reading.withFault_append (f : Fault) (r s : Reading) :
    (r.withFault f).append s = (r.append s).withFault f := rfl

/-- The line of a place that is left within whole lines has been started. -/
theorem LeavesLines.startedBehind {ts rest : List Token} (h : LeavesLines ts rest) :
    startedBehind true ts = startedBehind true rest := by
  obtain ⟨front, rfl, hline⟩ := h.skipped
  rw [startedBehind_append, startedBehind_onOneLine hline]

/-- Whole lines are read as they are alone, and what follows as it is at its place. -/
theorem readFrom_append {started : Bool} {ts : List Token} (h : WholeLines 0 ts)
    {rest : List Token} (hrest : StopsStatement rest) :
    readFrom started (ts ++ rest) =
      (readFrom started ts).append (readFrom (startedBehind started ts) rest) := by
  fun_induction readFrom started ts with
  | case1 started => rfl
  | case2 started t ts hk => exact absurd hk h.2.1
  | case3 t ts hk ih =>
    have hlines := h.tail (by simp [hk, TokenKind.depthAfter])
    simp [readFrom, hk, ih hlines]
  | case4 started t ts hk hs ih =>
    have hlines := h.tail (by simp [hk, TokenKind.depthAfter])
    simp [readFrom, hk, hs, ih hlines, Reading.withNode_append]
  | case5 started t ts text hk ih =>
    have hlines := h.tail (by simp [hk, TokenKind.depthAfter])
    simp [readFrom, hk, ih hlines, Reading.withNode_append]
  | case6 started t ts text hk ih =>
    have hlines := h.tail (by simp [hk, TokenKind.depthAfter])
    simp [readFrom, hk, ih hlines, Reading.withNode_append]
  | case7 started t ts name hk read command hr ih =>
    have hlines := h.tail (by simp [hk, TokenKind.depthAfter])
    obtain ⟨hleft, happend⟩ := hlines.statement_append name t
    simp [readFrom, hk, happend rest hrest, hr, ih hleft.lines, hleft.startedBehind, read,
      Reading.withNode_append]
  | case8 started t ts name hk read fault hr ih =>
    have hlines := h.tail (by simp [hk, TokenKind.depthAfter])
    obtain ⟨hleft, happend⟩ := hlines.statement_append name t
    simp [readFrom, hk, happend rest hrest, hr, ih hleft.lines, hleft.startedBehind, read,
      Reading.withFault_append]
  | case9 started t ts h1 h2 h3 h4 h5 ih =>
    obtain ⟨hleft, happend⟩ := h.2.2.nextLine_append
    have hn : t.kind ≠ .newline := h2
    rw [List.cons_append, readFrom_unexpected h1 h2 h3 h4 h5, happend rest hrest, ih hleft.lines,
      startedBehind_cons, decide_eq_true hn, hleft.startedBehind, Reading.withFault_append]

def Fault.moved (m : Move) (f : Fault) : Fault := ⟨f.cause, f.span.moved m, f.line + m.lines⟩

def Invocation.moved (m : Move) (c : Invocation) : Invocation :=
  { c with span := c.span.moved m, line := c.line + m.lines }

def Node.moved (m : Move) : Node → Node
  | .invocation c => .invocation (c.moved m)
  | .comment c => .comment { c with line := c.line + m.lines }
  | .blankLine line => .blankLine (line + m.lines)

def ArgumentList.moved (m : Move) : ArgumentList → ArgumentList
  | .closed arguments close rest => .closed arguments (close.moved m) (rest.map (Token.moved m))
  | .unclosed stop rest => .unclosed (stop.map (Token.moved m)) (rest.map (Token.moved m))

def Reading.moved (m : Move) (r : Reading) : Reading :=
  ⟨r.nodes.map (Node.moved m), r.faults.map (Fault.moved m)⟩

theorem Span.join_moved (m : Move) (s t : Span) :
    (s.moved m).join (t.moved m) = (s.join t).moved m := by
  simp only [join, moved, Span.mk.injEq]
  omega

theorem ArgumentList.moved_push (m : Move) (a : Argument) (l : ArgumentList) :
    (l.push a).moved m = (l.moved m).push a := by
  cases l <;> rfl

theorem argumentList_moved (m : Move) (depth : Nat) (ts : List Token) :
    argumentList depth (ts.map (Token.moved m)) = (argumentList depth ts).moved m := by
  fun_induction argumentList depth ts with
  | case1 => rfl
  | case2 depth t ts hk => simp [argumentList, hk, ArgumentList.moved]
  | case3 depth t ts hk ih => simp [argumentList, hk, ih, ArgumentList.moved_push]
  | case4 t ts hk => simp [argumentList, hk, ArgumentList.moved]
  | case5 depth t ts hk hd ih => simp [argumentList, hk, hd, ih, ArgumentList.moved_push]
  | case6 depth t ts a he hl hr ha ih =>
    rw [List.map_cons, argumentList]
    split <;> simp_all [ArgumentList.moved_push]
  | case7 depth t ts he hl hr ha ih =>
    rw [List.map_cons, argumentList]
    split <;> simp_all

theorem nextLine_moved (m : Move) (ts : List Token) :
    nextLine (ts.map (Token.moved m)) = (nextLine ts).map (Token.moved m) := by
  rw [nextLine, List.dropWhile_map]
  rfl

/-- A statement or what is wrong with it, moved. -/
def movedStatement (m : Move) : Except Fault Invocation → Except Fault Invocation
  | .ok command => .ok (command.moved m)
  | .error fault => .error (fault.moved m)

theorem statement_moved (m : Move) (name : String) (t : Token) (ts : List Token) :
    statement name (t.moved m) (ts.map (Token.moved m)) =
      (movedStatement m (statement name t ts).1, (statement name t ts).2.map (Token.moved m)) := by
  cases ts with
  | nil => rfl
  | cons paren ts =>
    by_cases hp : paren.kind = .leftParen
    · cases hl : argumentList 0 ts with
      | closed arguments close rest =>
        simp [statement, hp, argumentList_moved, hl, ArgumentList.moved, movedStatement,
          Invocation.moved, Span.join_moved]
      | unclosed stop rest =>
        cases stop <;>
          simp [statement, hp, argumentList_moved, hl, ArgumentList.moved, movedStatement,
            Fault.moved, Span.join_moved, nextLine_moved]
    · simp [statement, hp, movedStatement, Fault.moved, ← nextLine_moved]

theorem readFrom_moved (m : Move) (started : Bool) (ts : List Token) :
    readFrom started (ts.map (Token.moved m)) = (readFrom started ts).moved m := by
  fun_induction readFrom started ts with
  | case1 => simp [readFrom, Reading.moved]
  | case2 started t ts hk => simp [readFrom, hk, Reading.moved]
  | case3 t ts hk ih => simp [readFrom, hk, ih]
  | case4 started t ts hk hs ih =>
    simp [readFrom, hk, hs, ih, Reading.withNode, Reading.moved, Node.moved]
  | case5 started t ts text hk ih =>
    simp [readFrom, hk, ih, Reading.withNode, Reading.moved, Node.moved]
  | case6 started t ts text hk ih =>
    simp [readFrom, hk, ih, Reading.withNode, Reading.moved, Node.moved]
  | case7 started t ts name hk read command hr ih =>
    simp [readFrom, hk, statement_moved, movedStatement, read, hr, ih, Reading.withNode,
      Reading.moved, Node.moved]
  | case8 started t ts name hk read fault hr ih =>
    simp [readFrom, hk, statement_moved, movedStatement, read, hr, ih, Reading.withFault,
      Reading.moved]
  | case9 started t ts he hn hl hb hi ih =>
    rw [List.map_cons, readFrom_unexpected (t := t.moved m) he hn hl hb hi, nextLine_moved, ih]
    rfl

/-- The tokens behind the last line end, all of them if there is none. -/
def lastLine (ts : List Token) : List Token :=
  (ts.reverse.takeWhile fun t => t.kind ≠ .newline).reverse

/-- A comment, or the name that a command starts with. -/
def TokenKind.startsItem : TokenKind → Bool
  | .ident _ | .lineComment _ | .bracketComment _ => true
  | _ => false

/-- A comment or a command stands on the line behind the tokens, if one did so before them when
`held` is set. -/
def itemBehind (held : Bool) (ts : List Token) : Bool :=
  ts.foldl (fun held t => t.kind ≠ .newline && (held || t.kind.startsItem)) held

theorem itemBehind_cons (held : Bool) (t : Token) (ts : List Token) :
    itemBehind held (t :: ts) =
      itemBehind (t.kind ≠ .newline && (held || t.kind.startsItem)) ts := rfl

theorem itemBehind_onOneLine {ts : List Token} (h : OnOneLine ts) : itemBehind true ts = true := by
  induction ts with
  | nil => rfl
  | cons t ts ih =>
    have ht : t.kind ≠ .newline := h t (by simp)
    simpa [itemBehind_cons, ht] using ih fun u hu => h u (by simp [hu])

theorem LeavesLines.itemBehind {ts rest : List Token} (h : LeavesLines ts rest) :
    itemBehind true ts = itemBehind true rest := by
  obtain ⟨front, rfl, hline⟩ := h.skipped
  rw [Script.itemBehind, List.foldl_append]
  exact congrArg (Script.itemBehind · rest) (itemBehind_onOneLine hline)

theorem itemBehind_endOfFile (ts : List Token) {last : Token} (hl : last.kind = .endOfFile) :
    itemBehind false (ts ++ [last]) = itemBehind false ts := by
  simp [itemBehind, hl, TokenKind.startsItem]

theorem itemBehind_eq_any (ts : List Token) :
    itemBehind false ts = (lastLine ts).any fun t => t.kind.startsItem := by
  induction ts using List.reverseRecOn with
  | nil => rfl
  | append_singleton ts t ih =>
    by_cases ht : t.kind = .newline
    · simp [itemBehind, lastLine, ht]
    · have hl : lastLine (ts ++ [t]) = lastLine ts ++ [t] := by simp [lastLine, ht]
      rw [hl, List.any_append, ← ih]
      simp [itemBehind, ht]

/-- In tokens without a fault every line that is started holds a comment or a command. -/
theorem startedBehind_eq_itemBehind {started : Bool} {ts : List Token} (h : WholeLines 0 ts)
    (hf : (readFrom started ts).faults = []) :
    startedBehind started ts = itemBehind started ts := by
  fun_induction readFrom started ts with
  | case1 => rfl
  | case2 started t ts hk => exact absurd hk h.2.1
  | case3 t ts hk ih =>
    have hlines := h.tail (by simp [hk, TokenKind.depthAfter])
    simpa [itemBehind_cons, hk] using ih hlines hf
  | case4 started t ts hk hs ih =>
    have hlines := h.tail (by simp [hk, TokenKind.depthAfter])
    simpa [itemBehind_cons, hk] using ih hlines hf
  | case5 started t ts text hk ih =>
    have hlines := h.tail (by simp [hk, TokenKind.depthAfter])
    simpa [itemBehind_cons, hk, TokenKind.startsItem] using ih hlines hf
  | case6 started t ts text hk ih =>
    have hlines := h.tail (by simp [hk, TokenKind.depthAfter])
    simpa [itemBehind_cons, hk, TokenKind.startsItem] using ih hlines hf
  | case7 started t ts name hk read command hr ih =>
    have hlines := h.tail (by simp [hk, TokenKind.depthAfter])
    have hleft := (hlines.statement_append name t).1
    have hrest := ih hleft.lines hf
    rw [← hleft.startedBehind, ← hleft.itemBehind] at hrest
    simpa [itemBehind_cons, hk, TokenKind.startsItem] using hrest
  | case8 => simp [Reading.withFault] at hf
  | case9 => simp [Reading.withFault] at hf

theorem depth_of_newline {depth : Nat} {l : Lexeme} (h : l.FitsAt depth)
    (hk : l.kind? = some .newline) : depth = 0 := by
  cases hf : l.form <;> simp [Lexeme.kind?, hf] at hk
  simp only [Lexeme.FitsAt, hf] at h
  exact h.2

theorem Lexeme.kind?_ne_endOfFile (l : Lexeme) : l.kind? ≠ some .endOfFile := by
  cases hf : l.form <;> simp [kind?, hf]

/-- Scanned text that closes its parentheses is whole lines. -/
theorem wholeLines_tokensAt {depth : Nat} {cs : List Char}
    (h : depthBehind depth (lexemesFrom depth cs) = 0) (p : Position) :
    WholeLines depth (tokensAt p (lexemesFrom depth cs)) := by
  fun_induction lexemesFrom depth cs generalizing p with
  | case1 depth => exact h
  | case2 depth c cs next ih =>
    have hrest := ih h (p.after next.1.text)
    have hdepth := next.1.kind?_depthAfter depth
    rw [tokensAt_cons]
    cases hk : next.1.kind? with
    | none =>
      rw [hk, Option.elim_none] at hdepth
      rw [hdepth] at hrest ⊢
      exact hrest
    | some kind =>
      rw [hk, Option.elim_some] at hdepth
      rw [hdepth] at hrest ⊢
      refine ⟨?_, ?_, hrest⟩
      · rintro rfl
        exact depth_of_newline (nextLexeme_fitsAt depth c cs) hk
      · rintro rfl
        exact Lexeme.kind?_ne_endOfFile next.1 hk

theorem wholeLines_of_scan {source : String} {tokens : List Token} (h : scan source = .ok tokens)
    (hd : tokenDepth 0 tokens = 0) :
    ∃ last, tokens = tokens.dropLast ++ [last] ∧ last.kind = .endOfFile ∧
      WholeLines 0 tokens.dropLast := by
  obtain ⟨-, rfl⟩ := scan_eq_ok.mp h
  rw [tokenDepth_endToken, tokenDepth_tokensAt] at hd
  rw [List.dropLast_concat]
  refine ⟨_, rfl, rfl, ?_⟩
  cases hs : source.toList with
  | nil => exact rfl
  | cons c cs =>
    by_cases hc : c = byteOrderMark
    · simp only [hs, lexemes, hc, ↓reduceIte] at hd ⊢
      exact wholeLines_tokensAt hd _
    · simp only [hs, lexemes, hc, ↓reduceIte] at hd ⊢
      exact wholeLines_tokensAt hd _

/-- What is wrong, if anything is. -/
def faultsOf {α : Type} : Except (List Fault) α → List Fault
  | .ok _ => []
  | .error faults => faults

theorem faultsOf_parse (ts : List Token) : faultsOf (parse ts) = (readFrom false ts).faults := by
  unfold parse
  cases h : (readFrom false ts).faults <;> simp [h, faultsOf]

theorem readScript_of_scan {source : String} {tokens : List Token}
    (h : scan source = .ok tokens) : readScript source = parse tokens := by
  rw [readScript, h]
  rfl

/-- The end token changes nothing behind whole lines. -/
theorem readFrom_endOfFile {ts : List Token} (h : WholeLines 0 ts) {last : Token}
    (hl : last.kind = .endOfFile) (started : Bool) :
    readFrom started (ts ++ [last]) = readFrom started ts := by
  have hstop : StopsStatement [last] := by simp [StopsStatement, endsStatement, hl]
  have hend : ∀ b, readFrom b [last] = ⟨[], []⟩ := by simp [readFrom, hl]
  rw [readFrom_append h hstop, hend]
  simp [Reading.append]

/-- Joined tokens are read as the two parts, with a blank line between them unless the first ends
in a line that is started. -/
theorem readFrom_joinedTokens (source : String) (us : List Token) {ts : List Token} {last : Token}
    (ht : ts = ts.dropLast ++ [last]) (hl : last.kind = .endOfFile)
    (h : WholeLines 0 ts.dropLast) :
    readFrom false (joinedTokens source ts us) =
      (readFrom false ts).append
        (Reading.append
          ⟨if startedBehind false ts.dropLast then []
            else [.blankLine (source.toList.count '\n' + 1)], []⟩
          ((readFrom false us).moved (.behind source))) := by
  have hstop : StopsStatement (lineEndBehind source :: us.map (Token.moved (.behind source))) := by
    simp [StopsStatement, endsStatement, lineEndBehind]
  have hfirst : readFrom false ts = readFrom false ts.dropLast := by
    rw [ht, readFrom_endOfFile h hl, List.dropLast_concat]
  rw [joinedTokens, readFrom_append h hstop, hfirst, readFrom]
  cases startedBehind false ts.dropLast <;>
    simp [lineEndBehind, readFrom_moved, Reading.append, Reading.withNode]

/-- Two scripts with a line end between them are scanned and read apart, if the first leaves no
parenthesis open and the second has no byte order mark. -/
theorem joined_reads_apart {a b : String} {ts us : List Token} (ha : scan a = .ok ts)
    (hb : scan b = .ok us) (hd : tokenDepth 0 ts = 0) (hm : b.toList.head? ≠ some byteOrderMark) :
    scan (a ++ "\n" ++ b) = .ok (joinedTokens a ts us) ∧
    faultsOf (readScript (a ++ "\n" ++ b)) =
      faultsOf (readScript a) ++ (faultsOf (readScript b)).map (Fault.moved (.behind a)) ∧
    ∀ ns ms, readScript a = .ok ns → readScript b = .ok ms →
      readScript (a ++ "\n" ++ b) = .ok (ns ++
        (if (lastLine ts).any fun t => t.kind.startsItem then []
          else [.blankLine (a.toList.count '\n' + 1)]) ++
        ms.map (Node.moved (.behind a))) := by
  have hjoined := scan_joined ha hb hd hm
  obtain ⟨last, ht, hl, hlines⟩ := wholeLines_of_scan ha hd
  have hread := readFrom_joinedTokens a us ht hl hlines
  rw [readScript_of_scan ha, readScript_of_scan hb, readScript_of_scan hjoined]
  refine ⟨hjoined, ?_, ?_⟩
  · rw [faultsOf_parse, faultsOf_parse, faultsOf_parse, hread]
    rfl
  · intro ns ms hns hms
    rw [parse_eq_ok] at hns hms ⊢
    have hfirst : readFrom false ts.dropLast = ⟨ns, []⟩ := by
      rw [← hns, ht, readFrom_endOfFile hlines hl, List.dropLast_concat]
    have hstarted : startedBehind false ts.dropLast =
        (lastLine ts).any fun t => t.kind.startsItem := by
      rw [startedBehind_eq_itemBehind hlines (by rw [hfirst]), ← itemBehind_eq_any,
        ← itemBehind_endOfFile ts.dropLast hl, ← ht]
    rw [hread, hns, hms, hstarted]
    simp [Reading.append, Reading.moved]

/-- A name without its parentheses and a bracket over two lines with a parenthesis too many are
reported one by one; a comment that ends in a line end is followed by a blank line. -/
theorem joined_reads_apart_faulty :
    faultsOf (readScript ("\ufefff g\n# c" ++ "\n" ++ "g([[\n]])\n)")) =
      [⟨.missingOpenParen "f", ⟨3, 4⟩, 1⟩, ⟨.unexpectedToken .rightParen, ⟨20, 21⟩, 5⟩] ∧
    readScript ("# c\n" ++ "\n" ++ "g()") =
      .ok [.comment ⟨.line, "# c", 1⟩, .blankLine 2, .invocation ⟨"g", [], ⟨5, 8⟩, 3⟩] := by
  constructor
  · have ha : scan "\ufefff g\n# c" = .ok
        [⟨.ident "f", ⟨3, 4⟩, 1⟩, ⟨.ident "g", ⟨5, 6⟩, 1⟩, ⟨.newline, ⟨6, 7⟩, 1⟩,
          ⟨.lineComment "# c", ⟨7, 10⟩, 2⟩, ⟨.endOfFile, ⟨10, 10⟩, 2⟩] := by decide +kernel
    have hb : scan "g([[\n]])\n)" = .ok
        [⟨.ident "g", ⟨0, 1⟩, 1⟩, ⟨.leftParen, ⟨1, 2⟩, 1⟩, ⟨.bracket "[[\n]]", ⟨2, 7⟩, 1⟩,
          ⟨.rightParen, ⟨7, 8⟩, 2⟩, ⟨.newline, ⟨8, 9⟩, 2⟩, ⟨.rightParen, ⟨9, 10⟩, 3⟩,
          ⟨.endOfFile, ⟨10, 10⟩, 3⟩] := by decide +kernel
    have hfaults := (joined_reads_apart ha hb (by decide) (by decide)).2.1
    rw [hfaults]
    decide +kernel
  · have ha : scan "# c\n" = .ok
        [⟨.lineComment "# c", ⟨0, 3⟩, 1⟩, ⟨.newline, ⟨3, 4⟩, 1⟩, ⟨.endOfFile, ⟨4, 4⟩, 2⟩] := by
      decide +kernel
    have hb : scan "g()" = .ok
        [⟨.ident "g", ⟨0, 1⟩, 1⟩, ⟨.leftParen, ⟨1, 2⟩, 1⟩, ⟨.rightParen, ⟨2, 3⟩, 1⟩,
          ⟨.endOfFile, ⟨3, 3⟩, 1⟩] := by decide +kernel
    have hns : readScript "# c\n" = .ok [.comment ⟨.line, "# c", 1⟩] := by decide +kernel
    have hms : readScript "g()" = .ok [.invocation ⟨"g", [], ⟨0, 3⟩, 1⟩] := by decide +kernel
    exact (joined_reads_apart ha hb (by decide) (by decide)).2.2 _ _ hns hms

end CMakeManual.Script
