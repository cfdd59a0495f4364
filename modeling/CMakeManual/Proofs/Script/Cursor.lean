import CMakeManual.Proofs.Script.Placement
import CMakeManual.Proofs.Text.Slice
import CMakeManual.Script.Parse

/-! Reading with a cursor. A scanner that moves a cursor over the characters and cuts the texts of
its tokens out of the script by byte offsets gets stuck where a slice has no answer or where it
does not move on; a reader that counts parentheses gets stuck where the count falls below zero.
Neither happens: `cursorScan` yields what `scan` yields, and `countingParse` what `parse` yields. -/
namespace CMakeManual.Script
open Text

/-- What is left of a script, and where that stands. -/
structure Cursor where
  rest : List Char
  position : Position

/-- Moves over one character, if there is one. -/
def Cursor.advance (p : Cursor) : Cursor :=
  match p.rest with
  | [] => p
  | c :: r => ⟨r, p.position.after [c]⟩

/-- Moves over the characters that satisfy `q`. -/
def skipWhile (q : Char → Bool) (p : Position) : List Char → Cursor
  | [] => ⟨[], p⟩
  | c :: r => if q c then skipWhile q (p.after [c]) r else ⟨c :: r, p⟩

/-- Moves on until a byte offset is reached or nothing is left. -/
def skipTo (offset : Nat) (p : Position) : List Char → Cursor
  | [] => ⟨[], p⟩
  | c :: r => if p.offset < offset then skipTo offset (p.after [c]) r else ⟨c :: r, p⟩

/-- Moves behind the quote that ends a quoted run, and says whether there is one. -/
def skipQuoted (p : Position) : List Char → Bool × Cursor
  | [] => (false, ⟨[], p⟩)
  | '\\' :: c :: r => skipQuoted (p.after ['\\', c]) r
  | c :: r => if c == '\x22' then (true, ⟨r, p.after [c]⟩) else skipQuoted (p.after [c]) r

theorem skipQuoted_length (p : Position) (cs : List Char) :
    (skipQuoted p cs).2.rest.length ≤ cs.length := by
  fun_induction skipQuoted p cs with
  | case1 => exact Nat.le_refl _
  | case2 p c r ih =>
    rw [List.length_cons, List.length_cons]
    omega
  | case3 => exact Nat.le_succ _
  | case4 p c r _ _ ih => exact Nat.le_succ_of_le ih

/-- Moves over an unquoted argument that starts at the byte `start`, and says whether every quoted
run in it ends. -/
def skipUnquoted (start : Nat) (p : Position) : List Char → Bool × Cursor
  | [] => (true, ⟨[], p⟩)
  | '\\' :: c :: r => skipUnquoted start (p.after ['\\', c]) r
  | c :: r =>
      if endsUnquoted c then (true, ⟨c :: r, p⟩)
      else if c == '\x22' then
        if p.offset = start then (true, ⟨c :: r, p⟩)
        else
          let run := skipQuoted (p.after [c]) r
          if run.1 then skipUnquoted start run.2.position run.2.rest else run
      else skipUnquoted start (p.after [c]) r
termination_by cs => cs.length
decreasing_by
  · simp only [List.length_cons]
    omega
  · exact Nat.lt_succ_of_le (skipQuoted_length (p.after [c]) r)
  · exact Nat.lt_succ_self r.length

theorem skipWhile_eq (q : Char → Bool) (p : Position) (cs : List Char) :
    skipWhile q p cs = ⟨cs.dropWhile q, p.after (cs.takeWhile q)⟩ := by
  induction cs generalizing p with
  | nil => rfl
  | cons c cs ih =>
    by_cases hq : q c
    · rw [skipWhile, if_pos hq, ih, List.dropWhile_cons_of_pos hq, List.takeWhile_cons_of_pos hq,
        ← Position.after_append, List.singleton_append]
    · rw [skipWhile, if_neg hq, List.dropWhile_cons_of_neg hq, List.takeWhile_cons_of_neg hq,
        Position.after_nil]

/-- An offset between two characters is hit exactly. -/
theorem skipTo_append (p : Position) (front rest : List Char) :
    skipTo (p.offset + byteLength front) p (front ++ rest) = ⟨rest, p.after front⟩ := by
  induction front generalizing p with
  | nil =>
    cases rest with
    | nil => rfl
    | cons c r => simp [skipTo]
  | cons c front ih =>
    have hpos := c.utf8Size_pos
    have hoff : p.offset + byteLength (c :: front) = (p.after [c]).offset + byteLength front := by
      simp [Position.after, Nat.add_assoc]
    have hlt : p.offset < (p.after [c]).offset + byteLength front := by
      simp only [Position.after, byteLength_cons, byteLength_nil]
      omega
    rw [hoff, List.cons_append, skipTo, if_pos hlt, ih, ← Position.after_append,
      List.singleton_append]

/-- The cursor behind a run of characters from `p` on, or at the end of `cs` if the run is not
closed. -/
def cursorBehind (p : Position) (cs : List Char) : Option (List Char × List Char) → Bool × Cursor
  | some (run, rest) => (true, ⟨rest, p.after run⟩)
  | none => (false, ⟨[], p.after cs⟩)

theorem cursorBehind_append (p : Position) (front cs : List Char)
    (run : Option (List Char × List Char)) :
    cursorBehind (p.after front) cs run =
      cursorBehind p (front ++ cs) (run.map fun cut => (front ++ cut.1, cut.2)) := by
  cases run <;> simp [cursorBehind]

theorem skipQuoted_eq (p : Position) (cs : List Char) :
    skipQuoted p cs = cursorBehind p cs (quotedRun cs) := by
  fun_induction skipQuoted p cs with
  | case1 => rfl
  | case2 p c r ih =>
    rw [ih, quotedRun]
    exact cursorBehind_append p ['\\', c] r _
  | case3 p c r hne hq =>
    rw [quotedRun.eq_3 c r hne, if_pos hq]
    rfl
  | case4 p c r hne hq ih =>
    rw [ih, quotedRun.eq_3 c r hne, if_neg hq]
    exact cursorBehind_append p [c] r _

/-- Inside quotes, an unquoted argument goes on behind the quoted run. -/
theorem unquotedRun_true (cs : List Char) :
    unquotedRun true cs = (quotedRun cs).bind fun cut =>
      (unquotedRun false cut.2).map fun more => (cut.1 ++ more.1, more.2) := by
  fun_induction quotedRun cs with
  | case1 => rfl
  | case2 c r ih =>
    rw [unquotedRun, ih]
    cases quotedRun r <;> simp [Function.comp_def]
  | case3 c r hne hq =>
    rw [unquotedRun.eq_3 true c r hne]
    simp [hq]
  | case4 c r hne hq ih =>
    rw [unquotedRun.eq_3 true c r hne]
    simp only [Bool.not_true, Bool.false_and, Bool.false_eq_true, if_false, hq, Bool.bne_false, ih]
    cases quotedRun r <;> simp [Function.comp_def]

/-- A quote ends an unquoted argument only where it starts. -/
theorem skipUnquoted_eq {start : Nat} {p : Position} {cs : List Char}
    (h : start < p.offset ∨ cs.head? ≠ some '\x22') (hp : start ≤ p.offset) :
    skipUnquoted start p cs = cursorBehind p cs (unquotedRun false cs) := by
  have onward {p : Position} (hp : start ≤ p.offset) (c : Char) (r : List Char) :
      start < (p.after (c :: r)).offset := by
    have := c.utf8Size_pos
    simp only [Position.after, byteLength_cons]
    omega
  fun_induction skipUnquoted start p cs with
  | case1 => rfl
  | case2 p c r ih =>
    have hon := onward hp '\\' [c]
    rw [ih (.inl hon) (Nat.le_of_lt hon), unquotedRun]
    exact cursorBehind_append p ['\\', c] r _
  | case3 p c r hne hends =>
    rw [unquotedRun.eq_3 false c r hne]
    simp [hends, cursorBehind]
  | case4 p c r hne hends hq hstart =>
    simp only [beq_iff_eq] at hq
    subst hq
    simp [hstart] at h
  | case5 p c r hne hends hq hstart run hrun ih =>
    have hread : unquotedRun false (c :: r) =
        (unquotedRun true r).map fun cut => (c :: cut.1, cut.2) := by
      rw [unquotedRun.eq_3 false c r hne]
      simp [hends, hq]
    have hrun' : run = cursorBehind (p.after [c]) r (quotedRun r) := skipQuoted_eq _ r
    cases hr : quotedRun r with
    | none => simp [hrun', hr, cursorBehind] at hrun
    | some cut =>
      obtain ⟨inside, rest⟩ := cut
      have hcursor : run.2 = ⟨rest, p.after (c :: inside)⟩ := by
        simp [hrun', hr, cursorBehind, ← Position.after_append]
      have hon := onward hp c inside
      rw [hcursor] at ih ⊢
      rw [ih (.inl hon) (Nat.le_of_lt hon), cursorBehind_append, hread, unquotedRun_true, hr,
        List.cons_append, quotedRun_append hr]
      simp [Function.comp_def]
  | case6 p c r hne hends hq hstart run hrun =>
    have hrun' : run = cursorBehind (p.after [c]) r (quotedRun r) := skipQuoted_eq _ r
    cases hr : quotedRun r with
    | none =>
      rw [hrun', hr, unquotedRun.eq_3 false c r hne]
      simp [hends, hq, unquotedRun_true, hr, cursorBehind, ← Position.after_append]
    | some cut => simp [hrun', hr, cursorBehind] at hrun
  | case7 p c r hne hends hq ih =>
    have hon := onward hp c []
    rw [ih (.inl hon) (Nat.le_of_lt hon), unquotedRun.eq_3 false c r hne]
    simp only [Bool.not_false, Bool.true_and, hends, Bool.false_eq_true, if_false, hq,
      Bool.bne_false]
    exact cursorBehind_append p [c] r _

/-! The scanner. -/

structure Scanner where
  cursor : Cursor
  depth : Nat
  tokens : List Token
  faults : List Fault

namespace Scanner

def atCursor (s : Scanner) (cursor : Cursor) : Scanner := { s with cursor }

/-- Adds a token from `start` up to the cursor. -/
def push (s : Scanner) (kind : TokenKind) (start : Position) : Scanner :=
  { s with tokens := s.tokens ++ [⟨kind, ⟨start.offset, s.cursor.position.offset⟩, start.line⟩] }

/-- Adds a fault from `start` up to the cursor. -/
def report (s : Scanner) (cause : Cause) (start : Position) : Scanner :=
  { s with faults := s.faults ++ [⟨cause, ⟨start.offset, s.cursor.position.offset⟩, start.line⟩] }

/-- Adds a token that carries the text from `start` up to the cursor. -/
def pushText (s : Scanner) (source : List Char) (kind : String → TokenKind) (start : Position) :
    Option Scanner :=
  (slice? source start.offset s.cursor.position.offset).map fun text =>
    s.push (kind (String.ofList text)) start

/-- The level of a bracket opener at a byte offset. There is none at an offset inside a
character. -/
def bracketLevel? (source : List Char) (offset : Nat) : Option Nat :=
  (sliceFrom? source offset).bind fun cs => (bracketOpen? cs).map Prod.fst

/-- Reads a bracket whose opener stands at the cursor. The closer is searched in what follows the
opener, and the cursor is moved by byte counts. -/
def scanBracket (s : Scanner) (source : List Char) (kind : String → TokenKind) (level : Nat)
    (start : Position) : Option Scanner :=
  let opened := skipTo (s.cursor.position.offset + level + 2) s.cursor.position s.cursor.rest
  (sliceFrom? source opened.position.offset).bind fun body =>
    match findOffset? (bracketCloser level) body with
    | some offset =>
        let stop := opened.position.offset + offset + byteLength (bracketCloser level)
        (s.atCursor (skipTo stop opened.position opened.rest)).pushText source kind start
    | none =>
        some ((s.atCursor (skipTo (byteLength source) opened.position opened.rest)).report
          (.unterminatedBracket level) start)

/-- Reads a comment; the `#` stands at the cursor. -/
def scanComment (s : Scanner) (source : List Char) : Option Scanner :=
  let inside := s.cursor.advance
  match bracketLevel? source inside.position.offset with
  | some level =>
      (s.atCursor inside).scanBracket source .bracketComment level s.cursor.position
  | none =>
      (s.atCursor (skipWhile (· != '\n') inside.position inside.rest)).pushText source
        .lineComment s.cursor.position

def scanQuoted (s : Scanner) (source : List Char) : Option Scanner :=
  let inside := s.cursor.advance
  let run := skipQuoted inside.position inside.rest
  if run.1 then (s.atCursor run.2).pushText source .quoted s.cursor.position
  else some ((s.atCursor run.2).report .unterminatedQuote s.cursor.position)

/-- A quoted run that does not end is reported, and what stands there is still cut out. -/
def scanUnquoted (s : Scanner) (source : List Char) : Option Scanner :=
  let start := s.cursor.position
  let run := skipUnquoted start.offset start s.cursor.rest
  let behind := s.atCursor run.2
  let reported := if run.1 then behind else behind.report .unterminatedQuote start
  reported.pushText source .unquoted start

/-- Reads an argument that starts with `c` at the cursor. -/
def scanArgument (s : Scanner) (source : List Char) (c : Char) : Option Scanner :=
  if c == '\x22' then s.scanQuoted source
  else
    match if c == '[' then bracketLevel? source s.cursor.position.offset else none with
    | some level => s.scanBracket source .bracket level s.cursor.position
    | none => s.scanUnquoted source

/-- Reads what stands at the cursor. -/
def scanToken (s : Scanner) (source : List Char) : Option Scanner :=
  let start := s.cursor.position
  let moved := s.atCursor s.cursor.advance
  match s.cursor.rest with
  | [] => some s
  | c :: _ =>
      if c == '\n' then some (if s.depth = 0 then moved.push .newline start else moved)
      else if isBlank c then some moved
      else if c == '#' then s.scanComment source
      else if c == '(' then some ({ moved with depth := s.depth + 1 }.push .leftParen start)
      else if c == ')' then some ({ moved with depth := s.depth - 1 }.push .rightParen start)
      else if 0 < s.depth then s.scanArgument source c
      else if startsName c then
        (s.atCursor (skipWhile continuesName start s.cursor.rest)).pushText source .ident start
      else some (moved.report (.unexpectedCharacter c) start)

/-- Reads on to the end. A step that does not move the cursor would go on for ever. -/
def scanAll (source : List Char) (s : Scanner) : Option Scanner :=
  match s.cursor.rest with
  | [] => some s
  | _ :: _ =>
      match s.scanToken source with
      | none => none
      | some t =>
          if t.cursor.rest.length < s.cursor.rest.length then scanAll source t else none
termination_by s.cursor.rest.length

end Scanner

/-- The tokens of a script, read with a cursor. -/
def cursorScan (source : String) : Option (Except (List Fault) (List Token)) :=
  let cs := source.toList
  let first : Cursor := ⟨cs, .first⟩
  let start := if cs.head? = some byteOrderMark then first.advance else first
  (Scanner.scanAll cs ⟨start, 0, [], []⟩).map fun s =>
    if s.faults = [] then .ok (s.tokens ++ [endToken s.cursor.position]) else .error s.faults

/-- `t` has read the lexeme `l` at the cursor of `s` and stands in front of `rest`. Tokens count
only as long as there is no fault. -/
structure Scanner.Reads (s t : Scanner) (l : Lexeme) (rest : List Char) : Prop where
  cursor : t.cursor = ⟨rest, s.cursor.position.after l.text⟩
  depth : t.depth = l.form.depthAfter s.depth
  faults : t.faults = s.faults ++ (Placed.fault? ⟨l, s.cursor.position⟩).toList
  tokens : t.faults = [] → t.tokens = s.tokens ++ (Placed.token? ⟨l, s.cursor.position⟩).toList

namespace Scanner
variable {source front : List Char} {s : Scanner}

@[simp] theorem atCursor_cursor (s : Scanner) (c : Cursor) : (s.atCursor c).cursor = c := rfl

@[simp] theorem atCursor_atCursor (s : Scanner) (c d : Cursor) :
    (s.atCursor c).atCursor d = s.atCursor d := rfl

theorem pushText_eq {text rest : List Char} {start : Position}
    (hs : source = front ++ text ++ rest) (hp : start.offset = byteLength front)
    (hc : s.cursor.position = start.after text) (kind : String → TokenKind) :
    s.pushText source kind start = some (s.push (kind (String.ofList text)) start) := by
  have hslice : slice? source start.offset s.cursor.position.offset = some text := by
    refine slice?_eq_some_iff.mpr ⟨front, rest, hs, hp, ?_⟩
    rw [hc, Position.after, hp, byteLength_append]
  rw [pushText, hslice, Option.map_some]

theorem bracketLevel?_eq {cs : List Char} {offset : Nat} (hs : source = front ++ cs)
    (hp : offset = byteLength front) :
    bracketLevel? source offset = (bracketOpen? cs).map Prod.fst := by
  rw [bracketLevel?, hs, hp, sliceFrom?_append, Option.bind_some]

/-- A scanner that adds a lexeme's token has read the lexeme. -/
theorem push_reads (l : Lexeme) (rest : List Char) {kind : TokenKind} (hk : l.kind? = some kind) :
    s.Reads ({ s.atCursor ⟨rest, s.cursor.position.after l.text⟩ with
      depth := l.form.depthAfter s.depth }.push kind s.cursor.position) l rest := by
  refine ⟨rfl, rfl, ?_, ?_⟩
  · simp [Placed.fault?, Lexeme.cause?_of_kind? hk, push, atCursor]
  · intro _
    simp [Placed.token?, hk, push, atCursor, Placed.span, Position.span]

theorem gap_reads (text rest : List Char) :
    s.Reads (s.atCursor ⟨rest, s.cursor.position.after text⟩) ⟨.gap, text⟩ rest := by
  refine ⟨rfl, rfl, ?_, ?_⟩
  · simp [Placed.fault?, Lexeme.cause?, atCursor]
  · intro _
    simp [Placed.token?, Lexeme.kind?, atCursor]

/-- A scanner that cuts out a lexeme's text has read the lexeme. -/
theorem pushText_reads (l : Lexeme) {rest : List Char} {kind : String → TokenKind}
    (hs : source = front ++ l.text ++ rest) (hp : s.cursor.position.offset = byteLength front)
    (hk : l.kind? = some (kind (String.ofList l.text))) (hd : l.form.depthAfter s.depth = s.depth) :
    ∃ t, (s.atCursor ⟨rest, s.cursor.position.after l.text⟩).pushText source kind
        s.cursor.position = some t ∧ s.Reads t l rest := by
  have hread := push_reads (s := s) l rest hk
  rw [hd] at hread
  exact ⟨_, pushText_eq hs hp rfl kind, hread⟩

/-- A scanner that reports a faulty lexeme has read it, whatever it does about tokens. -/
theorem report_reads (l : Lexeme) (rest : List Char) {cause : Cause} (hc : l.cause? = some cause)
    (hd : l.form.depthAfter s.depth = s.depth) :
    s.Reads ((s.atCursor ⟨rest, s.cursor.position.after l.text⟩).report cause s.cursor.position)
      l rest := by
  refine ⟨rfl, hd.symm, ?_, ?_⟩
  · simp [Placed.fault?, hc, report, atCursor, Placed.span, Position.span]
  · intro h
    simp [report] at h

theorem Reads.push_of_faulty {t : Scanner} {l : Lexeme} {rest : List Char} (h : s.Reads t l rest)
    (hf : t.faults ≠ []) (kind : TokenKind) (start : Position) :
    s.Reads (t.push kind start) l rest :=
  ⟨h.cursor, h.depth, h.faults, fun he => absurd he hf⟩

theorem byteLength_bracketOpener (level : Nat) : byteLength (bracketOpener level) = level + 2 := by
  have hsize : ∀ c ∈ bracketOpener level, c.utf8Size = 1 := by
    intro c hc
    simp only [bracketOpener, List.mem_cons, List.mem_append, List.mem_replicate,
      List.not_mem_nil, or_false] at hc
    rcases hc with rfl | ⟨-, rfl⟩ | rfl <;> rfl
  rw [byteLength_eq_length hsize]
  simp [bracketOpener]

/-- Moving by byte counts ends behind the closer of a bracket, or at the end without one. -/
theorem scanBracket_reads (form : Form) (kind : String → TokenKind) {before body : List Char}
    {level : Nat} (hs : source = front ++ (before ++ bracketOpener level ++ body))
    (hp : s.cursor.position.offset = byteLength front)
    (hk : ∀ text, Lexeme.kind? ⟨form, text⟩ = some (kind (String.ofList text)))
    (hd : form.depthAfter s.depth = s.depth) :
    ∃ t, (s.atCursor ⟨bracketOpener level ++ body, s.cursor.position.after before⟩).scanBracket
        source kind level s.cursor.position = some t ∧
      s.Reads t (bracketLexeme form before level body).1
        (bracketLexeme form before level body).2 := by
  have hopen : skipTo ((s.cursor.position.after before).offset + level + 2)
      (s.cursor.position.after before) (bracketOpener level ++ body) =
        ⟨body, s.cursor.position.after (before ++ bracketOpener level)⟩ := by
    rw [Nat.add_assoc, ← byteLength_bracketOpener, skipTo_append, ← Position.after_append]
  have hbody : sliceFrom? source
      (s.cursor.position.after (before ++ bracketOpener level)).offset = some body := by
    rw [Position.after, hp, ← byteLength_append, hs, ← List.append_assoc, sliceFrom?_append]
  simp only [scanBracket, atCursor_cursor, atCursor_atCursor, hopen, hbody, Option.bind_some]
  cases hcut : cutAfter (bracketCloser level) body with
  | some cut =>
    obtain ⟨inside, rest⟩ := cut
    obtain ⟨offset, hfind, hlen⟩ := findOffset?_of_cutAfter hcut
    have hl : bracketLexeme form before level body =
        (⟨form, before ++ bracketOpener level ++ inside⟩, rest) := by
      rw [bracketLexeme, hcut]
    have hinside := cutAfter_append hcut
    rw [hl, hfind]
    simp only [Nat.add_assoc, hlen]
    rw [← hinside, skipTo_append, ← Position.after_append]
    exact pushText_reads ⟨form, before ++ bracketOpener level ++ inside⟩
      (by rw [hs, ← hinside]; simp) hp (hk _) hd
  | none =>
    have hl : bracketLexeme form before level body =
        (⟨.openBracket level, before ++ bracketOpener level ++ body⟩, []) := by
      rw [bracketLexeme, hcut]
    have hend : byteLength source =
        (s.cursor.position.after (before ++ bracketOpener level)).offset + byteLength body := by
      rw [hs, byteLength_append, byteLength_append, Position.after, hp, Nat.add_assoc]
    rw [hl, findOffset?_eq_none hcut, hend]
    have hskip := skipTo_append (s.cursor.position.after (before ++ bracketOpener level)) body []
    rw [List.append_nil] at hskip
    simp only [hskip, ← Position.after_append]
    exact ⟨_, rfl,
      report_reads ⟨.openBracket level, before ++ bracketOpener level ++ body⟩ [] rfl rfl⟩

theorem scanComment_reads {cs : List Char} (hs : source = front ++ '#' :: cs)
    (hc : s.cursor.rest = '#' :: cs) (hp : s.cursor.position.offset = byteLength front) :
    ∃ t, s.scanComment source = some t ∧ s.Reads t (commentLexeme cs).1 (commentLexeme cs).2 := by
  have hadv : s.cursor.advance = ⟨cs, s.cursor.position.after ['#']⟩ := by
    rw [Cursor.advance, hc]
  have hlevel : bracketLevel? source (s.cursor.position.after ['#']).offset =
      (bracketOpen? cs).map Prod.fst := by
    have hsplit : source = (front ++ ['#']) ++ cs := by rw [hs, List.append_assoc]; rfl
    refine bracketLevel?_eq hsplit ?_
    rw [Position.after, hp, byteLength_append]
  simp only [scanComment, hadv, hlevel]
  cases hb : bracketOpen? cs with
  | some bracket =>
    obtain ⟨level, body⟩ := bracket
    have hcs := bracketOpen?_eq_some hb
    have hl : commentLexeme cs = bracketLexeme .bracketComment ['#'] level body := by
      rw [commentLexeme, hb]
    rw [hl, Option.map_some, ← hcs]
    exact scanBracket_reads .bracketComment .bracketComment (by rw [hs, ← hcs]; rfl) hp
      (fun _ => rfl) rfl
  | none =>
    have hl : commentLexeme cs =
        (⟨.lineComment, '#' :: cs.takeWhile (· != '\n')⟩, cs.dropWhile (· != '\n')) := by
      rw [commentLexeme, hb]
    rw [hl, Option.map_none]
    simp only [skipWhile_eq, ← Position.after_append]
    refine pushText_reads ⟨.lineComment, '#' :: cs.takeWhile (· != '\n')⟩ ?_ hp rfl rfl
    rw [hs, List.append_assoc, List.cons_append, List.takeWhile_append_dropWhile]

theorem scanQuoted_reads {cs : List Char} (hs : source = front ++ '\x22' :: cs)
    (hc : s.cursor.rest = '\x22' :: cs) (hp : s.cursor.position.offset = byteLength front) :
    ∃ t, s.scanQuoted source = some t ∧
      s.Reads t (argumentLexeme '\x22' cs).1 (argumentLexeme '\x22' cs).2 := by
  have hadv : s.cursor.advance = ⟨cs, s.cursor.position.after ['\x22']⟩ := by
    rw [Cursor.advance, hc]
  simp only [scanQuoted, hadv, skipQuoted_eq, cursorBehind_append]
  cases hq : quotedRun cs with
  | some cut =>
    obtain ⟨run, rest⟩ := cut
    have hl : argumentLexeme '\x22' cs = (⟨.quoted, '\x22' :: run⟩, rest) := by
      simp [argumentLexeme, hq]
    rw [hl]
    refine pushText_reads ⟨.quoted, '\x22' :: run⟩ ?_ hp rfl rfl
    rw [hs, ← quotedRun_append hq, List.append_assoc, List.cons_append]
  | none =>
    have hl : argumentLexeme '\x22' cs = (⟨.openQuote, '\x22' :: cs⟩, []) := by
      simp [argumentLexeme, hq]
    rw [hl]
    exact ⟨_, rfl, report_reads ⟨.openQuote, '\x22' :: cs⟩ [] rfl rfl⟩

theorem scanUnquoted_reads {c : Char} {cs : List Char} (hs : source = front ++ c :: cs)
    (hc : s.cursor.rest = c :: cs) (hp : s.cursor.position.offset = byteLength front)
    (hq : c ≠ '\x22') (hb : bracketOpen? (c :: cs) = none) :
    ∃ t, s.scanUnquoted source = some t ∧
      s.Reads t (argumentLexeme c cs).1 (argumentLexeme c cs).2 := by
  have hskip : skipUnquoted s.cursor.position.offset s.cursor.position s.cursor.rest =
      cursorBehind s.cursor.position (c :: cs) (unquotedRun false (c :: cs)) := by
    rw [hc]
    exact skipUnquoted_eq (.inr (by simpa using hq)) (Nat.le_refl _)
  simp only [scanUnquoted, hskip]
  cases hu : unquotedRun false (c :: cs) with
  | some cut =>
    obtain ⟨run, rest⟩ := cut
    have hl : argumentLexeme c cs = (⟨.unquoted, run⟩, rest) := by
      simp [argumentLexeme, hq, hb, hu]
    rw [hl]
    refine pushText_reads ⟨.unquoted, run⟩ ?_ hp rfl rfl
    rw [hs, List.append_assoc, unquotedRun_append hu]
  | none =>
    have hl : argumentLexeme c cs = (⟨.openQuote, c :: cs⟩, []) := by
      simp [argumentLexeme, hq, hb, hu]
    have hread := report_reads (s := s) ⟨.openQuote, c :: cs⟩ [] rfl rfl
    have hsplit : source = front ++ (c :: cs) ++ [] := by rw [hs, List.append_nil]
    rw [hl]
    exact ⟨_, pushText_eq hsplit hp rfl _, hread.push_of_faulty (by simp [report]) _ _⟩

theorem scanArgument_reads {c : Char} {cs : List Char} (hs : source = front ++ c :: cs)
    (hc : s.cursor.rest = c :: cs) (hp : s.cursor.position.offset = byteLength front) :
    ∃ t, s.scanArgument source c = some t ∧
      s.Reads t (argumentLexeme c cs).1 (argumentLexeme c cs).2 := by
  unfold scanArgument
  split
  next hq =>
    obtain rfl : c = '\x22' := by simpa using hq
    exact scanQuoted_reads hs hc hp
  next hq =>
    have hlevel : (if c == '[' then bracketLevel? source s.cursor.position.offset else none) =
        (bracketOpen? (c :: cs)).map Prod.fst := by
      split
      next => exact bracketLevel?_eq hs hp
      next hb =>
        have hne : c ≠ '[' := by simpa using hb
        simp [bracketOpen?, hne]
    rw [hlevel]
    cases hb : bracketOpen? (c :: cs) with
    | some bracket =>
      obtain ⟨level, body⟩ := bracket
      have hcs := bracketOpen?_eq_some hb
      have hl : argumentLexeme c cs = bracketLexeme .bracket [] level body := by
        rw [argumentLexeme, if_neg hq, hb]
      have hat : s.atCursor ⟨bracketOpener level ++ body, s.cursor.position.after []⟩ = s := by
        rw [hcs, ← hc]
        rfl
      have hsplit : source = front ++ ([] ++ bracketOpener level ++ body) := by
        rw [hs, List.nil_append, hcs]
      have hread := scanBracket_reads .bracket .bracket hsplit hp (fun _ => rfl) rfl
      rw [hat] at hread
      rw [hl]
      exact hread
    | none => exact scanUnquoted_reads hs hc hp (by simpa using hq) hb

theorem scanToken_reads {c : Char} {cs : List Char} (hs : source = front ++ c :: cs)
    (hc : s.cursor.rest = c :: cs) (hp : s.cursor.position.offset = byteLength front) :
    ∃ t, s.scanToken source = some t ∧
      s.Reads t (nextLexeme s.depth c cs).1 (nextLexeme s.depth c cs).2 := by
  have hadv : s.cursor.advance = ⟨cs, s.cursor.position.after [c]⟩ := by
    rw [Cursor.advance, hc]
  simp only [scanToken, hc, hadv, nextLexeme]
  split
  · by_cases hd : s.depth = 0
    · rw [if_pos hd, if_pos hd]
      exact ⟨_, rfl, push_reads ⟨.newline, [c]⟩ cs rfl⟩
    · rw [if_neg hd, if_neg hd]
      exact ⟨_, rfl, gap_reads [c] cs⟩
  split
  · exact ⟨_, rfl, gap_reads [c] cs⟩
  split
  next hh =>
    obtain rfl : c = '#' := by simpa using hh
    exact scanComment_reads hs hc hp
  split
  · exact ⟨_, rfl, push_reads ⟨.leftParen, [c]⟩ cs rfl⟩
  split
  · exact ⟨_, rfl, push_reads ⟨.rightParen, [c]⟩ cs rfl⟩
  split
  · exact scanArgument_reads hs hc hp
  split
  next hn =>
    have hcont : continuesName c = true := by
      simp only [startsName, Bool.or_eq_true] at hn
      rcases hn with hn | hn
      · simp [continuesName, Char.isAlphanum, hn]
      · simp [continuesName, hn]
    rw [skipWhile_eq, List.takeWhile_cons_of_pos hcont, List.dropWhile_cons_of_pos hcont]
    refine pushText_reads ⟨.ident, c :: cs.takeWhile continuesName⟩ ?_ hp rfl rfl
    rw [hs, List.append_assoc, List.cons_append, List.takeWhile_append_dropWhile]
  next => exact ⟨_, rfl, report_reads ⟨.stray, [c]⟩ cs rfl rfl⟩

/-! Whole scripts. -/

theorem scanAll_of_nil (source : List Char) (h : s.cursor.rest = []) :
    scanAll source s = some s := by
  rw [scanAll.eq_def, h]

theorem scanAll_of_step {c : Char} {cs : List Char} {t : Scanner} (hc : s.cursor.rest = c :: cs)
    (ht : s.scanToken source = some t) (hlt : t.cursor.rest.length < (c :: cs).length) :
    scanAll source s = scanAll source t := by
  rw [scanAll.eq_def, hc, ht]
  exact if_pos hlt

/-- The scanner reads on to the end and finds what the lexemes in their places are. -/
theorem scanAll_reads (front : List Char) (s : Scanner) {depth : Nat} {cs : List Char}
    (hs : source = front ++ cs) (hc : s.cursor.rest = cs) (hd : s.depth = depth)
    (hp : s.cursor.position.offset = byteLength front) :
    ∃ t, scanAll source s = some t ∧ t.cursor.position = s.cursor.position.after cs ∧
      t.faults = s.faults ++
        (place s.cursor.position (lexemesFrom depth cs)).filterMap Placed.fault? ∧
      (t.faults = [] →
        t.tokens = s.tokens ++ tokensAt s.cursor.position (lexemesFrom depth cs)) := by
  fun_induction lexemesFrom depth cs generalizing s front with
  | case1 depth =>
    exact ⟨s, scanAll_of_nil source hc, rfl, by simp [place], by simp⟩
  | case2 depth c cs next ih =>
    obtain ⟨t, ht, hread⟩ := scanToken_reads hs hc hp
    rw [hd] at hread
    have hnext : next.1.text ++ next.2 = c :: cs := nextLexeme_append depth c cs
    have hrest : t.cursor.rest = next.2 := by rw [hread.cursor]
    have hpos : t.cursor.position = s.cursor.position.after next.1.text := by rw [hread.cursor]
    have hsplit : source = (front ++ next.1.text) ++ next.2 := by
      rw [hs, List.append_assoc, hnext]
    have hoffset : t.cursor.position.offset = byteLength (front ++ next.1.text) := by
      rw [hpos, Position.after, hp, byteLength_append]
    have hmoves : t.cursor.rest.length < (c :: cs).length := by
      rw [hrest]
      exact nextLexeme_rest_length depth c cs
    obtain ⟨u, hu, hend, hfaults, htokens⟩ :=
      ih _ t hsplit hrest (hread.depth.trans (by rw [hd])) hoffset
    refine ⟨u, (scanAll_of_step hc ht hmoves).trans hu, ?_, ?_, ?_⟩
    · rw [hend, hpos, ← Position.after_append, hnext]
    · rw [hfaults, hread.faults, hpos, List.append_assoc]
      cases hf : Placed.fault? ⟨next.1, s.cursor.position⟩ <;> simp [place, next, hf]
    · intro hnone
      have ht : t.faults = [] := (List.append_eq_nil_iff.mp (hfaults.symm.trans hnone)).1
      rw [htokens hnone, hread.tokens ht, hpos, List.append_assoc, tokensAt_cons]
      rfl

end Scanner

/-- A scanner that stands behind the byte order mark, or at the start without one, finds what
`scan` finds. -/
theorem scanAll_eq_scan {source : String} {front rest : List Char}
    (hs : source.toList = front ++ rest)
    (hf : (place .first (lexemes source.toList)).filterMap Placed.fault? =
      (place (Position.first.after front) (lexemesFrom 0 rest)).filterMap Placed.fault?)
    (ht : tokensAt .first (lexemes source.toList) =
      tokensAt (Position.first.after front) (lexemesFrom 0 rest)) :
    (Scanner.scanAll source.toList ⟨⟨rest, Position.first.after front⟩, 0, [], []⟩).map (fun s =>
      if s.faults = [] then .ok (s.tokens ++ [endToken s.cursor.position]) else .error s.faults) =
      some (scan source) := by
  have hoffset : (Position.first.after front).offset = byteLength front := Nat.zero_add _
  obtain ⟨t, hscan, hend, hfaults, htokens⟩ := Scanner.scanAll_reads front
    ⟨⟨rest, Position.first.after front⟩, 0, [], []⟩ hs rfl rfl hoffset
  rw [List.nil_append, ← hf] at hfaults
  rw [List.nil_append, ← ht] at htokens
  rw [← Position.after_append, ← hs] at hend
  rw [hscan, Option.map_some, hend]
  simp only [scan, ← hfaults]
  cases hcase : t.faults with
  | nil => rw [if_pos rfl, htokens hcase, tokensAt]
  | cons f fs => rfl

/-- Every slice of the scanner has its answer and every step moves on, for every script. -/
theorem cursorScan_eq (source : String) : cursorScan source = some (scan source) := by
  unfold cursorScan
  rcases lexemes_cases source.toList with ⟨rest, hs, hl⟩ | ⟨hhead, hl⟩
  · have hadv : (⟨source.toList, .first⟩ : Cursor).advance =
        ⟨rest, Position.first.after [byteOrderMark]⟩ := by
      rw [Cursor.advance, hs]
    have hmark : source.toList.head? = some byteOrderMark := by rw [hs, List.head?_cons]
    simp only [if_pos hmark, hadv]
    exact scanAll_eq_scan hs (by rw [hl]; rfl) (by rw [hl, tokensAt_cons]; rfl)
  · simp only [if_neg hhead]
    exact scanAll_eq_scan (List.nil_append _).symm (by rw [hl]; rfl) (by rw [hl]; rfl)

/-! The reader. -/

/-- Reads arguments with the count of open parentheses, which the closing one takes to zero. -/
def countedArguments (depth : Nat) : List Token → Option ArgumentList
  | [] => some (.unclosed none [])
  | t :: ts =>
      match t.kind with
      | .endOfFile => some (.unclosed (some t) ts)
      | .leftParen => (countedArguments (depth + 1) ts).map (ArgumentList.push ⟨.unquoted, "("⟩)
      | .rightParen =>
          match depth with
          | 0 => none
          | depth + 1 =>
              if depth = 0 then some (.closed [] t ts)
              else (countedArguments depth ts).map (ArgumentList.push ⟨.unquoted, ")"⟩)
      | kind =>
          match kind.argument? with
          | some a => (countedArguments depth ts).map (ArgumentList.push a)
          | none => countedArguments depth ts

/-- The count is one more than the number of further parentheses, so it never falls below zero. -/
theorem countedArguments_eq (depth : Nat) (ts : List Token) :
    countedArguments (depth + 1) ts = some (argumentList depth ts) := by
  induction ts generalizing depth with
  | nil => rfl
  | cons t ts ih =>
    cases hk : t.kind with
    | endOfFile => simp only [countedArguments, argumentList, hk]
    | leftParen => simp only [countedArguments, argumentList, hk, ih, Option.map_some]
    | rightParen =>
      simp only [countedArguments, argumentList, hk]
      cases depth with
      | zero => rfl
      | succ outer => simp [ih]
    | ident _ | unquoted _ | quoted _ | bracket _ | lineComment _ | bracketComment _ | newline =>
      simp only [countedArguments, argumentList, hk, TokenKind.argument?, ih, Option.map_some]

/-- An invocation, read with a count that starts at its opening parenthesis. -/
def countedStatement (name : String) (t : Token) :
    List Token → Option (Except Fault Invocation × List Token)
  | paren :: ts =>
      if paren.kind = .leftParen then
        (countedArguments 1 ts).map fun
          | .closed arguments close rest =>
              (.ok ⟨name, arguments, t.span.join close.span, t.line⟩, rest)
          | .unclosed stop rest =>
              let span := (stop.map fun s => t.span.join s.span).getD t.span
              (.error ⟨.unterminatedInvocation name, span, t.line⟩, nextLine rest)
      else some (.error ⟨.missingOpenParen name, t.span, t.line⟩, nextLine (paren :: ts))
  | [] => some (.error ⟨.missingOpenParen name, t.span, t.line⟩, [])

theorem countedStatement_eq (name : String) (t : Token) (ts : List Token) :
    countedStatement name t ts = some (statement name t ts) := by
  cases ts with
  | nil => rfl
  | cons paren ts =>
    have hcount : countedArguments 1 ts = some (argumentList 0 ts) := countedArguments_eq 0 ts
    simp only [countedStatement, statement, hcount, Option.map_some]
    split
    · cases argumentList 0 ts <;> rfl
    · rfl

/-- Reads nodes with counted parentheses. -/
def countedRead (started : Bool) : List Token → Option Reading
  | [] => some ⟨[], []⟩
  | t :: ts =>
      match t.kind with
      | .endOfFile => some ⟨[], []⟩
      | .newline =>
          if started then countedRead false ts
          else (countedRead false ts).map (.withNode (.blankLine t.line))
      | .lineComment text =>
          (countedRead true ts).map (.withNode (.comment ⟨.line, text, t.line⟩))
      | .bracketComment text =>
          (countedRead true ts).map (.withNode (.comment ⟨.bracket, text, t.line⟩))
      | .ident name =>
          match _h : countedStatement name t ts with
          | none => none
          | some (.ok command, rest) =>
              (countedRead true rest).map (.withNode (.invocation command))
          | some (.error fault, rest) => (countedRead true rest).map (.withFault fault)
      | found =>
          (countedRead true (nextLine ts)).map
            (.withFault ⟨.unexpectedToken found, t.span, t.line⟩)
termination_by ts => ts.length
decreasing_by
  all_goals
    have := nextLine_length ts
    have := statement_rest_length
    have := countedStatement_eq
    grind

theorem countedRead_eq (started : Bool) (ts : List Token) :
    countedRead started ts = some (readFrom started ts) := by
  fun_induction countedRead started ts with
  | case1 => rw [readFrom]
  | case2 started t ts hk => rw [readFrom, hk]
  | case3 t ts hk ih => simp only [readFrom, hk, ih, if_true]
  | case4 started t ts hk hs ih => simp only [readFrom, hk, ih, hs, Option.map_some]; rfl
  | case5 started t ts text hk ih => simp only [readFrom, hk, ih, Option.map_some]
  | case6 started t ts text hk ih => simp only [readFrom, hk, ih, Option.map_some]
  | case7 started t ts name hk h => simp [countedStatement_eq] at h
  | case8 started t ts name hk command rest h ih =>
    rw [countedStatement_eq, Option.some.injEq] at h
    simp only [readFrom, hk, h, ih, Option.map_some]
  | case9 started t ts name hk fault rest h ih =>
    rw [countedStatement_eq, Option.some.injEq] at h
    simp only [readFrom, hk, h, ih, Option.map_some]
  | case10 started t ts h1 h2 h3 h4 h5 ih =>
    rw [ih, readFrom_unexpected h1 h2 h3 h4 h5, Option.map_some]

def countingParse (tokens : List Token) : Option (Except (List Fault) (List Node)) :=
  (countedRead false tokens).map fun reading =>
    if reading.faults = [] then .ok reading.nodes else .error reading.faults

/-- The reader gets through every list of tokens. -/
theorem countingParse_eq (tokens : List Token) : countingParse tokens = some (parse tokens) := by
  rw [countingParse, countedRead_eq, Option.map_some]
  simp only [parse]
  cases (readFrom false tokens).faults <;> rfl

end CMakeManual.Script
