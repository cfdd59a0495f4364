import CMakeManual.Proofs.Script.Placement
import CMakeManual.Script.Canonical

/-! The spelling of names, arguments and comments, and that each is one lexeme wherever it stands
and whatever follows it, as long as that cannot belong to it. -/
namespace CMakeManual.Script
open Text

/-- A quoted text behind its opening quote. A backslash takes the next character with it. -/
inductive QuotedTail : List Char → Prop where
  | close : QuotedTail ['\x22']
  | escape (c : Char) {r : List Char} : QuotedTail r → QuotedTail ('\\' :: c :: r)
  | char {c : Char} {r : List Char} : c ≠ '\\' → c ≠ '\x22' → QuotedTail r → QuotedTail (c :: r)

/-- A row of ordinary characters, escaped characters and quoted texts. -/
inductive UnquotedPieces : List Char → Prop where
  | nil : UnquotedPieces []
  | char {c : Char} {r : List Char} : c ≠ '\\' → c ≠ '\x22' → endsUnquoted c = false →
      UnquotedPieces r → UnquotedPieces (c :: r)
  | escape (c : Char) {r : List Char} : UnquotedPieces r → UnquotedPieces ('\\' :: c :: r)
  | quoted {q r : List Char} : QuotedTail q → UnquotedPieces r → UnquotedPieces ('\x22' :: (q ++ r))

/-- The text does not start with a bracket opener of any level. -/
def Unbracketed (cs : List Char) : Prop := ∀ level, ¬ bracketOpener level <+: cs

/-- A bracket whose closer occurs at its end and nowhere before. -/
def BracketText (cs : List Char) : Prop :=
  ∃ level body, cs = bracketOpener level ++ (body ++ bracketCloser level) ∧
    ∀ u v, body ++ bracketCloser level = u ++ (bracketCloser level ++ v) → v = []

/-- A command name. -/
def NameText (cs : List Char) : Prop :=
  ∃ c r, cs = c :: r ∧ startsName c = true ∧ ∀ d ∈ r, continuesName d = true

/-- The texts of arguments as written. A parenthesis may stand for itself. -/
inductive ArgumentText : ArgumentKind → List Char → Prop where
  | unquoted {cs : List Char} : cs ≠ [] → cs.head? ≠ some '\x22' → Unbracketed cs →
      UnquotedPieces cs → ArgumentText .unquoted cs
  | quoted {r : List Char} : QuotedTail r → ArgumentText .quoted ('\x22' :: r)
  | bracket {cs : List Char} : BracketText cs → ArgumentText .bracket cs
  | leftParen : ArgumentText .unquoted ['(']
  | rightParen : ArgumentText .unquoted [')']

/-- The texts of comments as written. -/
inductive CommentText : CommentKind → List Char → Prop where
  | line {r : List Char} : '\n' ∉ r → Unbracketed r → CommentText .line ('#' :: r)
  | bracket {r : List Char} : BracketText r → CommentText .bracket ('#' :: r)

/-- The text that follows starts with a character that ends an unquoted argument. -/
def Separated (rest : List Char) : Prop := ∃ c r, rest = c :: r ∧ endsUnquoted c = true

theorem quotedRun_cons {c : Char} (hc : c ≠ '\\') (r : List Char) :
    quotedRun (c :: r) =
      if c == '\x22' then some ([c], r) else (quotedRun r).map fun cut => (c :: cut.1, cut.2) := by
  rw [quotedRun]
  intro d s hd
  exact absurd hd hc

theorem unquotedRun_cons {c : Char} (hc : c ≠ '\\') (inQuotes : Bool) (r : List Char) :
    unquotedRun inQuotes (c :: r) =
      if !inQuotes && endsUnquoted c then some ([], c :: r)
      else (unquotedRun (inQuotes != (c == '\x22')) r).map fun cut => (c :: cut.1, cut.2) := by
  rw [unquotedRun]
  intro d s hd
  exact absurd hd hc

theorem quotedRun_of_tail {q : List Char} (h : QuotedTail q) (rest : List Char) :
    quotedRun (q ++ rest) = some (q, rest) := by
  induction h with
  | close => rfl
  | escape c _ ih => simp [quotedRun, ih]
  | char hb hq _ ih => simp [quotedRun_cons hb, hq, ih]

/-- Inside an unquoted argument a quoted text is passed over as a whole. -/
theorem unquotedRun_of_tail {q : List Char} (h : QuotedTail q) (rest : List Char) :
    unquotedRun true (q ++ rest) =
      (unquotedRun false rest).map fun cut => (q ++ cut.1, cut.2) := by
  induction h with
  | close => simp [unquotedRun_cons]
  | escape c _ ih => simp [unquotedRun, ih, Function.comp_def]
  | char hb hq _ ih => simp [unquotedRun_cons hb, beq_eq_false_iff_ne.mpr hq, ih, Function.comp_def]

theorem unquotedRun_of_pieces {cs : List Char} (h : UnquotedPieces cs) {rest : List Char}
    (hr : Separated rest) : unquotedRun false (cs ++ rest) = some (cs, rest) := by
  induction h with
  | nil =>
    obtain ⟨c, r, rfl, hc⟩ := hr
    have hb : c ≠ '\\' := by
      rintro rfl
      revert hc
      decide
    simp [unquotedRun_cons hb, hc]
  | char hb hq he _ ih => simp [unquotedRun_cons hb, beq_eq_false_iff_ne.mpr hq, he, ih]
  | escape c _ ih => simp [unquotedRun, ih]
  | @quoted q r hq _ ih =>
    have hn : endsUnquoted '\x22' = false := by decide
    rw [List.cons_append, List.append_assoc, unquotedRun_cons (by decide)]
    simp [hn, unquotedRun_of_tail hq, ih]

theorem bracketOpen?_opener (level : Nat) (body : List Char) :
    bracketOpen? (bracketOpener level ++ body) = some (level, body) := by
  simp [bracketOpen?, bracketOpener]

/-- No opener is completed by a text that follows. -/
theorem bracketOpen?_eq_none {cs rest : List Char} (h : Unbracketed cs)
    (hr : ∀ c ∈ rest.head?, c ≠ '[' ∧ c ≠ '=') : bracketOpen? (cs ++ rest) = none := by
  cases ho : bracketOpen? (cs ++ rest) with
  | none => rfl
  | some found =>
    obtain ⟨level, body⟩ := found
    rcases List.append_eq_append_iff.mp (bracketOpen?_eq_some ho) with
      ⟨u, hcs, -⟩ | ⟨u, hopener, hrest⟩
    · exact absurd ⟨u, hcs.symm⟩ (h level)
    · cases u with
      | nil => exact absurd (by simp [hopener]) (h level)
      | cons c u =>
        have hc : c ∈ bracketOpener level := by simp [hopener]
        obtain ⟨hb, he⟩ := hr c (by simp [hrest])
        simp [bracketOpener, hb, he] at hc

/-- The first occurrence of a mark is where a text is cut. -/
theorem cutAfter_first {mark body : List Char} (hm : mark ≠ [])
    (h : ∀ u v, body ++ mark = u ++ (mark ++ v) → v = []) (rest : List Char) :
    cutAfter mark (body ++ (mark ++ rest)) = some (body ++ mark, rest) := by
  induction body with
  | nil =>
    obtain ⟨c, m, rfl⟩ := List.exists_cons_of_ne_nil hm
    simp [cutAfter]
  | cons c body ih =>
    have hn : mark.isPrefixOf (c :: (body ++ (mark ++ rest))) = false := by
      apply Bool.eq_false_iff.mpr
      intro hp
      have hl : mark.length ≤ (c :: (body ++ mark)).length := by
        rw [List.length_cons, List.length_append]
        omega
      obtain ⟨v, hv⟩ := List.prefix_of_prefix_length_le (List.isPrefixOf_iff_prefix.mp hp)
        ⟨rest, by simp⟩ hl
      obtain rfl := h [] v (by simpa using hv.symm)
      have := congrArg List.length hv
      simp only [List.append_nil, List.length_cons, List.length_append] at this
      omega
    have hb := ih fun u v hv => h (c :: u) v (by simp [hv])
    rw [List.cons_append, cutAfter, hn, hb]
    rfl

/-- A bracket is closed where its text ends. -/
theorem bracketLexeme_of_text {level : Nat} {body : List Char}
    (h : ∀ u v, body ++ bracketCloser level = u ++ (bracketCloser level ++ v) → v = [])
    (form : Form) (before rest : List Char) :
    bracketLexeme form before level (body ++ (bracketCloser level ++ rest)) =
      (⟨form, before ++ (bracketOpener level ++ (body ++ bracketCloser level))⟩, rest) := by
  rw [bracketLexeme, cutAfter_first (by simp [bracketCloser]) h]
  simp

theorem bracketText_of_not_mem (level : Nat) (body : List Char) (h : ']' ∉ body) :
    BracketText (bracketOpener level ++ (body ++ bracketCloser level)) := by
  refine ⟨level, body, rfl, ?_⟩
  intro u v huv
  rcases List.append_eq_append_iff.mp huv with ⟨w, -, hw⟩ | ⟨w, hb, hw⟩
  · have hl := congrArg List.length hw
    simp only [List.length_append] at hl
    exact List.length_eq_zero_iff.mp (by omega)
  · cases w with
    | nil => simpa using hw
    | cons d w =>
      obtain rfl : ']' = d := (List.cons.inj hw).1
      exact absurd (by simp [hb]) h

theorem toNat_of_startsName {c : Char} (h : startsName c = true) :
    65 ≤ c.toNat ∧ c.toNat ≤ 122 := by
  have hranges : (decide ('A'.val ≤ c.val ∧ c.val ≤ 'Z'.val) ||
      (decide ('a'.val ≤ c.val) && decide (c.val ≤ 'z'.val)) || c == '_') = true := h
  simp only [Bool.or_eq_true, Bool.and_eq_true, decide_eq_true_eq, beq_iff_eq,
    UInt32.le_iff_toNat_le] at hranges
  rcases hranges with (⟨hl, hu⟩ | ⟨hl, hu⟩) | rfl
  · exact ⟨hl, Nat.le_trans hu (by decide)⟩
  · exact ⟨Nat.le_trans (by decide) hl, hu⟩
  · decide

theorem endsUnquoted_of_toNat {c : Char} (h : 48 ≤ c.toNat ∧ c.toNat ≤ 122) :
    endsUnquoted c = false := by
  have hb : isBlank c = false := by
    simp [isBlank]
    omega
  have hne (d : Char) (hd : d.toNat < 48) : (c == d) = false := by
    apply beq_eq_false_iff_ne.mpr
    rintro rfl
    omega
  simp [endsUnquoted, hb, hne '(' (by decide), hne ')' (by decide), hne '#' (by decide)]

theorem endsUnquoted_of_startsName {c : Char} (h : startsName c = true) :
    endsUnquoted c = false := by
  have := toNat_of_startsName h
  exact endsUnquoted_of_toNat ⟨by omega, by omega⟩

/-- What `nextLexeme` takes is the first lexeme. -/
theorem lexemesFrom_of_next {depth : Nat} {c : Char} {cs rest : List Char} {l : Lexeme}
    (h : nextLexeme depth c cs = (l, rest)) :
    lexemesFrom depth (c :: cs) = l :: lexemesFrom (l.form.depthAfter depth) rest := by
  rw [lexemesFrom_cons, h]

/-- A character that ends no argument starts one, inside parentheses. -/
theorem nextLexeme_argument {depth : Nat} (hd : 0 < depth) {c : Char}
    (hc : endsUnquoted c = false) (cs : List Char) :
    nextLexeme depth c cs = argumentLexeme c cs := by
  have hn : c ≠ '\n' := by
    rintro rfl
    revert hc
    decide
  simp only [endsUnquoted, Bool.or_eq_false_iff] at hc
  obtain ⟨⟨⟨hb, hl⟩, hr⟩, hh⟩ := hc
  simp [nextLexeme, hn, hb, hh, hl, hr, hd]

def ArgumentKind.form : ArgumentKind → Form
  | .unquoted => .unquoted
  | .quoted => .quoted
  | .bracket => .bracket

def Argument.opens (a : Argument) : Bool := a.text = "("

def Argument.closes (a : Argument) : Bool := a.text = ")"

/-- The lexeme that an argument is. -/
def Argument.lexeme (a : Argument) : Lexeme :=
  ⟨if a.opens then .leftParen else if a.closes then .rightParen else a.kind.form, a.text.toList⟩

theorem separated_ne {rest : List Char} (h : Separated rest) :
    ∀ c ∈ rest.head?, c ≠ '[' ∧ c ≠ '=' := by
  obtain ⟨d, r, rfl, hd⟩ := h
  intro c hc
  obtain rfl : d = c := by simpa using hc
  constructor <;> (rintro rfl; revert hd; decide)

/-- An unquoted text of a script is one lexeme. -/
theorem argumentLexeme_unquoted {c : Char} {r rest : List Char} (hq : c ≠ '\x22')
    (hb : Unbracketed (c :: r)) (hp : UnquotedPieces (c :: r)) (hr : Separated rest) :
    argumentLexeme c (r ++ rest) = (⟨.unquoted, c :: r⟩, rest) := by
  have ho : bracketOpen? (c :: (r ++ rest)) = none := bracketOpen?_eq_none hb (separated_ne hr)
  have hu : unquotedRun false (c :: (r ++ rest)) = some (c :: r, rest) :=
    unquotedRun_of_pieces hp hr
  simp [argumentLexeme, hq, ho, hu]

theorem argumentLexeme_quoted {r : List Char} (h : QuotedTail r) (rest : List Char) :
    argumentLexeme '\x22' (r ++ rest) = (⟨.quoted, '\x22' :: r⟩, rest) := by
  simp [argumentLexeme, quotedRun_of_tail h]

theorem argumentLexeme_bracket {cs : List Char} (h : BracketText cs) :
    ∃ r, cs = '[' :: r ∧ ∀ rest, argumentLexeme '[' (r ++ rest) = (⟨.bracket, cs⟩, rest) := by
  obtain ⟨level, body, rfl, hfirst⟩ := h
  refine ⟨List.replicate level '=' ++ ['['] ++ (body ++ bracketCloser level), rfl, ?_⟩
  intro rest
  have ho := bracketOpen?_opener level (body ++ (bracketCloser level ++ rest))
  have hl := bracketLexeme_of_text hfirst .bracket [] rest
  simp only [bracketOpener, List.cons_append, List.append_assoc, List.nil_append] at ho hl ⊢
  simp [argumentLexeme, ho, hl]

theorem endsUnquoted_of_pieces {c : Char} {r : List Char} (hq : c ≠ '\x22')
    (h : UnquotedPieces (c :: r)) : endsUnquoted c = false := by
  cases h with
  | char _ _ he _ => exact he
  | escape => decide
  | quoted => exact absurd rfl hq

theorem Argument.lexeme_of_head {a : Argument} {c : Char} {r : List Char}
    (ht : a.text.toList = c :: r) (hc : endsUnquoted c = false) :
    a.lexeme = ⟨a.kind.form, c :: r⟩ := by
  have hl : a.text ≠ "(" := by
    intro he
    obtain ⟨rfl, -⟩ : '(' = c ∧ [] = r := by simpa [he] using ht
    revert hc
    decide
  have hr : a.text ≠ ")" := by
    intro he
    obtain ⟨rfl, -⟩ : ')' = c ∧ [] = r := by simpa [he] using ht
    revert hc
    decide
  simp [Argument.lexeme, Argument.opens, Argument.closes, hl, hr, ht]

/-- An argument is one lexeme, inside parentheses and in front of a separator. -/
theorem lexemesFrom_argument {a : Argument} (h : ArgumentText a.kind a.text.toList) {depth : Nat}
    (hd : 0 < depth) {rest : List Char} (hr : Separated rest) :
    lexemesFrom depth (a.text.toList ++ rest) =
      a.lexeme :: lexemesFrom (a.lexeme.form.depthAfter depth) rest := by
  have step {c : Char} {r : List Char} (ht : a.text.toList = c :: r)
      (hc : endsUnquoted c = false)
      (hl : argumentLexeme c (r ++ rest) = (⟨a.kind.form, c :: r⟩, rest)) :
      lexemesFrom depth (a.text.toList ++ rest) =
        a.lexeme :: lexemesFrom (a.lexeme.form.depthAfter depth) rest := by
    rw [Argument.lexeme_of_head ht hc, ht, List.cons_append]
    exact lexemesFrom_of_next ((nextLexeme_argument hd hc _).trans hl)
  generalize ht : a.text.toList = cs at h
  generalize hk : a.kind = kind at h
  cases h with
  | @unquoted cs hne hq hb hp =>
    obtain ⟨c, r, rfl⟩ := List.exists_cons_of_ne_nil hne
    have hq : c ≠ '\x22' := by simpa using hq
    rw [← ht]
    exact step ht (endsUnquoted_of_pieces hq hp) (hk ▸ argumentLexeme_unquoted hq hb hp hr)
  | quoted hq =>
    rw [← ht]
    exact step ht (by decide) (hk ▸ argumentLexeme_quoted hq rest)
  | bracket hb =>
    obtain ⟨r, rfl, hl⟩ := argumentLexeme_bracket hb
    rw [← ht]
    exact step ht (by decide) (hk ▸ hl rest)
  | leftParen =>
    have he : a.text = "(" := by simpa [← String.toList_inj] using ht
    simp only [Argument.lexeme, Argument.opens, he, decide_true, ↓reduceIte]
    exact lexemesFrom_of_next (by simp [nextLexeme, isBlank])
  | rightParen =>
    have he : a.text = ")" := by simpa [← String.toList_inj] using ht
    simp only [Argument.lexeme, Argument.opens, Argument.closes, he]
    exact lexemesFrom_of_next (by simp [nextLexeme, isBlank])

/-- A name is one lexeme, outside parentheses and in front of the opening one. -/
theorem lexemesFrom_name {cs : List Char} (h : NameText cs) (rest : List Char) :
    lexemesFrom 0 (cs ++ '(' :: rest) = ⟨.ident, cs⟩ :: lexemesFrom 0 ('(' :: rest) := by
  obtain ⟨c, r, rfl, hc, hr⟩ := h
  have hp : continuesName '(' = false := by decide
  have hn : c ≠ '\n' := by
    rintro rfl
    revert hc
    decide
  have he := endsUnquoted_of_startsName hc
  simp only [endsUnquoted, Bool.or_eq_false_iff] at he
  obtain ⟨⟨⟨hb, hl⟩, hr'⟩, hh⟩ := he
  apply lexemesFrom_of_next (l := ⟨.ident, c :: r⟩)
  simp [nextLexeme, hn, hb, hh, hl, hr', hc, List.takeWhile_append_of_pos hr,
    List.dropWhile_append_of_pos hr, hp]

def CommentKind.form : CommentKind → Form
  | .line => .lineComment
  | .bracket => .bracketComment

/-- A comment in front of a line end is one lexeme. -/
theorem commentLexeme_of_text {kind : CommentKind} {r : List Char}
    (h : CommentText kind ('#' :: r)) (rest : List Char) :
    commentLexeme (r ++ '\n' :: rest) = (⟨kind.form, '#' :: r⟩, '\n' :: rest) := by
  cases h with
  | line hn hb =>
    have ho : bracketOpen? (r ++ '\n' :: rest) = none := bracketOpen?_eq_none hb (by simp)
    have hr : ∀ c ∈ r, (c != '\n') = true := by
      intro c hc
      simpa using fun he : c = '\n' => hn (he ▸ hc)
    simp [commentLexeme, ho, List.takeWhile_append_of_pos hr, List.dropWhile_append_of_pos hr,
      CommentKind.form]
  | bracket hb =>
    obtain ⟨level, body, rfl, hfirst⟩ := hb
    have ho := bracketOpen?_opener level (body ++ (bracketCloser level ++ '\n' :: rest))
    have hl := bracketLexeme_of_text hfirst .bracketComment ['#'] ('\n' :: rest)
    simp only [commentLexeme, List.append_assoc, ho, hl]
    rfl

theorem CommentText.head {kind : CommentKind} {cs : List Char} (h : CommentText kind cs) :
    ∃ r, cs = '#' :: r := by
  cases h with
  | line => exact ⟨_, rfl⟩
  | bracket => exact ⟨_, rfl⟩

theorem lexemesFrom_comment {kind : CommentKind} {cs : List Char} (h : CommentText kind cs)
    (depth : Nat) (rest : List Char) :
    lexemesFrom depth (cs ++ '\n' :: rest) =
      ⟨kind.form, cs⟩ :: lexemesFrom depth ('\n' :: rest) := by
  obtain ⟨r, rfl⟩ := h.head
  have hb : isBlank '#' = false := by decide
  have hd : kind.form.depthAfter depth = depth := by cases kind <;> rfl
  have hl : nextLexeme depth '#' (r ++ '\n' :: rest) = (⟨kind.form, '#' :: r⟩, '\n' :: rest) := by
    simp [nextLexeme, hb, commentLexeme_of_text h]
  rw [List.cons_append, lexemesFrom_of_next hl, hd]

end CMakeManual.Script
