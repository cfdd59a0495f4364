import CMakeManual.Script.Fault
import CMakeManual.Text.Blank

/-! A script cut into lexemes. Every character belongs to one lexeme, those between the tokens
included, so the lexemes of a script put together are the script (`lexemes_text`). What a lexeme
is depends on the text from its start and on how many parentheses are open there. -/
namespace CMakeManual.Script
open Text

/-- What a lexeme is. The last three are faults. -/
inductive Form where
  | gap
  | newline
  | leftParen
  | rightParen
  | ident
  | unquoted
  | quoted
  | bracket
  | lineComment
  | bracketComment
  | stray
  | openQuote
  | openBracket (level : Nat)
  deriving DecidableEq

structure Lexeme where
  form : Form
  text : List Char
  deriving DecidableEq

def startsName (c : Char) : Bool := c.isAlpha || c == '_'

def continuesName (c : Char) : Bool := c.isAlphanum || c == '_'

/-- Ends an unquoted argument when it is neither escaped nor inside a quoted run. -/
def endsUnquoted (c : Char) : Bool := isBlank c || c == '(' || c == ')' || c == '#'

/-- Level and body of a bracket whose opener stands first. -/
def bracketOpen? : List Char → Option (Nat × List Char)
  | '[' :: r =>
      match r.dropWhile (· == '=') with
      | '[' :: body => some ((r.takeWhile (· == '=')).length, body)
      | _ => none
  | _ => none

/-- The rest of a quoted run, closing quote included, and what follows it. A backslash takes the
next character with it. -/
def quotedRun : List Char → Option (List Char × List Char)
  | [] => none
  | '\\' :: c :: r => (quotedRun r).map fun cut => ('\\' :: c :: cut.1, cut.2)
  | c :: r =>
      if c == '\x22' then some ([c], r)
      else (quotedRun r).map fun cut => (c :: cut.1, cut.2)

/-- The rest of an unquoted argument and what follows it. A backslash takes the next character
with it, whatever that is, and a quote opens or closes a quoted run; there is no answer when the
text ends inside such a run. -/
def unquotedRun : (inQuotes : Bool) → List Char → Option (List Char × List Char)
  | inQuotes, [] => if inQuotes then none else some ([], [])
  | inQuotes, '\\' :: c :: r =>
      (unquotedRun inQuotes r).map fun cut => ('\\' :: c :: cut.1, cut.2)
  | inQuotes, c :: r =>
      if !inQuotes && endsUnquoted c then some ([], c :: r)
      else (unquotedRun (inQuotes != (c == '\x22')) r).map fun cut => (c :: cut.1, cut.2)

/-- The bracket with body `body`, or everything that is left if it is not closed. -/
def bracketLexeme (form : Form) (before : List Char) (level : Nat) (body : List Char) :
    Lexeme × List Char :=
  match cutAfter (bracketCloser level) body with
  | some (inside, rest) => (⟨form, before ++ bracketOpener level ++ inside⟩, rest)
  | none => (⟨.openBracket level, before ++ bracketOpener level ++ body⟩, [])

/-- The comment whose `#` stands before `cs`. -/
def commentLexeme (cs : List Char) : Lexeme × List Char :=
  match bracketOpen? cs with
  | some (level, body) => bracketLexeme .bracketComment ['#'] level body
  | none => (⟨.lineComment, '#' :: cs.takeWhile (· != '\n')⟩, cs.dropWhile (· != '\n'))

/-- The argument that starts with `c`. -/
def argumentLexeme (c : Char) (cs : List Char) : Lexeme × List Char :=
  if c == '\x22' then
    match quotedRun cs with
    | some (run, rest) => (⟨.quoted, c :: run⟩, rest)
    | none => (⟨.openQuote, c :: cs⟩, [])
  else
    match bracketOpen? (c :: cs) with
    | some (level, body) => bracketLexeme .bracket [] level body
    | none =>
        match unquotedRun false (c :: cs) with
        | some (run, rest) => (⟨.unquoted, run⟩, rest)
        | none => (⟨.openQuote, c :: cs⟩, [])

/-- The lexeme that starts with `c`, and the text behind it. -/
def nextLexeme (depth : Nat) (c : Char) (cs : List Char) : Lexeme × List Char :=
  if c == '\n' then (⟨if depth = 0 then .newline else .gap, [c]⟩, cs)
  else if isBlank c then (⟨.gap, [c]⟩, cs)
  else if c == '#' then commentLexeme cs
  else if c == '(' then (⟨.leftParen, [c]⟩, cs)
  else if c == ')' then (⟨.rightParen, [c]⟩, cs)
  else if 0 < depth then argumentLexeme c cs
  else if startsName c then (⟨.ident, c :: cs.takeWhile continuesName⟩, cs.dropWhile continuesName)
  else (⟨.stray, [c]⟩, cs)

/-- Open parentheses behind a lexeme; one that closes nothing leaves the count at zero. -/
def Form.depthAfter (form : Form) (depth : Nat) : Nat :=
  match form with
  | .leftParen => depth + 1
  | .rightParen => depth - 1
  | _ => depth

theorem bracketOpen?_eq_some {cs : List Char} {level : Nat} {body : List Char}
    (h : bracketOpen? cs = some (level, body)) : bracketOpener level ++ body = cs := by
  unfold bracketOpen? at h
  split at h
  next r =>
    split at h
    next rest hd =>
      simp only [Option.some.injEq, Prod.mk.injEq] at h
      obtain ⟨rfl, rfl⟩ := h
      have hr : List.replicate (r.takeWhile (· == '=')).length '=' = r.takeWhile (· == '=') := by
        refine (List.eq_replicate_iff.2 ⟨rfl, fun x hx => ?_⟩).symm
        simpa using List.all_eq_true.1 List.all_takeWhile x hx
      simp only [bracketOpener, hr, List.cons_append, List.append_assoc, List.nil_append, ← hd,
        List.takeWhile_append_dropWhile]
    next => simp at h
  next => simp at h

theorem quotedRun_append {cs run rest : List Char} (h : quotedRun cs = some (run, rest)) :
    run ++ rest = cs := by
  fun_induction quotedRun cs generalizing run rest with
  | case1 => simp at h
  | case2 c r ih =>
      obtain ⟨⟨a, b⟩, hc, he⟩ := Option.map_eq_some_iff.1 h
      simp only [Prod.mk.injEq] at he
      obtain ⟨rfl, rfl⟩ := he
      simp [ih hc]
  | case3 c r _ hq =>
      simp only [Option.some.injEq, Prod.mk.injEq] at h
      simp [← h.1, ← h.2]
  | case4 c r _ _ ih =>
      obtain ⟨⟨a, b⟩, hc, he⟩ := Option.map_eq_some_iff.1 h
      simp only [Prod.mk.injEq] at he
      obtain ⟨rfl, rfl⟩ := he
      simp [ih hc]

theorem unquotedRun_append {inQuotes : Bool} {cs run rest : List Char}
    (h : unquotedRun inQuotes cs = some (run, rest)) : run ++ rest = cs := by
  fun_induction unquotedRun inQuotes cs generalizing run rest with
  | case1 => simp at h
  | case2 => simp_all
  | case3 _ c r ih =>
      obtain ⟨⟨a, b⟩, hc, he⟩ := Option.map_eq_some_iff.1 h
      simp only [Prod.mk.injEq] at he
      obtain ⟨rfl, rfl⟩ := he
      simp [ih hc]
  | case4 => simp_all
  | case5 _ c r _ _ ih =>
      obtain ⟨⟨a, b⟩, hc, he⟩ := Option.map_eq_some_iff.1 h
      simp only [Prod.mk.injEq] at he
      obtain ⟨rfl, rfl⟩ := he
      simp [ih hc]

theorem bracketLexeme_append (form : Form) (before : List Char) (level : Nat) (body : List Char) :
    (bracketLexeme form before level body).1.text ++ (bracketLexeme form before level body).2 =
      before ++ bracketOpener level ++ body := by
  unfold bracketLexeme
  split
  next inside rest h => simp [cutAfter_append h]
  next => simp

theorem commentLexeme_append (cs : List Char) :
    (commentLexeme cs).1.text ++ (commentLexeme cs).2 = '#' :: cs := by
  unfold commentLexeme
  split
  next level body h => simp [bracketLexeme_append, bracketOpen?_eq_some h]
  next => simp [List.takeWhile_append_dropWhile]

theorem argumentLexeme_append (c : Char) (cs : List Char) :
    (argumentLexeme c cs).1.text ++ (argumentLexeme c cs).2 = c :: cs := by
  unfold argumentLexeme
  split
  · split
    next run rest h => simp [quotedRun_append h]
    next => simp
  · split
    next level body h => simp [bracketLexeme_append, bracketOpen?_eq_some h]
    next =>
      split
      next run rest h => exact unquotedRun_append h
      next => simp

/-- A lexeme and the text behind it are the text it was taken from. -/
theorem nextLexeme_append (depth : Nat) (c : Char) (cs : List Char) :
    (nextLexeme depth c cs).1.text ++ (nextLexeme depth c cs).2 = c :: cs := by
  unfold nextLexeme
  repeat' split
  all_goals simp [commentLexeme_append, argumentLexeme_append, List.takeWhile_append_dropWhile]
  next h => simp_all

theorem bracketLexeme_text_ne_nil (form : Form) (before : List Char) (level : Nat)
    (body : List Char) : (bracketLexeme form before level body).1.text ≠ [] := by
  unfold bracketLexeme
  split <;> simp [bracketOpener]

theorem commentLexeme_text_ne_nil (cs : List Char) : (commentLexeme cs).1.text ≠ [] := by
  unfold commentLexeme
  split
  · exact bracketLexeme_text_ne_nil _ _ _ _
  · simp

theorem argumentLexeme_text_ne_nil {c : Char} (hc : endsUnquoted c = false) (cs : List Char) :
    (argumentLexeme c cs).1.text ≠ [] := by
  unfold argumentLexeme
  split
  · split <;> simp
  · split
    · exact bracketLexeme_text_ne_nil _ _ _ _
    · split
      next run rest h =>
        rintro rfl
        unfold unquotedRun at h
        split at h <;> simp_all
      next => simp

/-- A lexeme is never empty. -/
theorem nextLexeme_text_ne_nil (depth : Nat) (c : Char) (cs : List Char) :
    (nextLexeme depth c cs).1.text ≠ [] := by
  unfold nextLexeme
  split
  · simp
  split
  · simp
  split
  · exact commentLexeme_text_ne_nil cs
  split
  · simp
  split
  · simp
  split
  · exact argumentLexeme_text_ne_nil (by simp_all [endsUnquoted]) cs
  split <;> simp

theorem nextLexeme_rest_length (depth : Nat) (c : Char) (cs : List Char) :
    (nextLexeme depth c cs).2.length < (c :: cs).length := by
  have h := congrArg List.length (nextLexeme_append depth c cs)
  have := List.length_pos_iff.2 (nextLexeme_text_ne_nil depth c cs)
  rw [List.length_append] at h
  omega

/-- The lexemes of a text that starts inside `depth` parentheses. -/
def lexemesFrom (depth : Nat) : List Char → List Lexeme
  | [] => []
  | c :: cs =>
      let next := nextLexeme depth c cs
      next.1 :: lexemesFrom (next.1.form.depthAfter depth) next.2
termination_by cs => cs.length
decreasing_by exact nextLexeme_rest_length depth c cs

def byteOrderMark : Char := '\ufeff'

/-- The lexemes of a script. A byte order mark at its start is a gap. -/
def lexemes (cs : List Char) : List Lexeme :=
  match cs with
  | c :: rest =>
      if c = byteOrderMark then ⟨.gap, [c]⟩ :: lexemesFrom 0 rest else lexemesFrom 0 (c :: rest)
  | [] => []

theorem lexemesFrom_text (depth : Nat) (cs : List Char) :
    (lexemesFrom depth cs).flatMap Lexeme.text = cs := by
  fun_induction lexemesFrom depth cs with
  | case1 => rfl
  | case2 depth c cs next ih => simp [ih, next, nextLexeme_append]

/-- Nothing of a script is lost or added. -/
theorem lexemes_text (cs : List Char) : (lexemes cs).flatMap Lexeme.text = cs := by
  unfold lexemes
  split
  · split <;> simp [lexemesFrom_text]
  · rfl

end CMakeManual.Script
