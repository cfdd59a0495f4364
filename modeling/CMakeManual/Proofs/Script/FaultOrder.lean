import CMakeManual.Proofs.Script.Location
import CMakeManual.Proofs.Script.Nesting

/-! The faults of a script come in order. A scan goes on behind a stray character and stops only
where a quote or bracket runs to the end; a reading gives up one line at a time, so no fault of a
line hides or causes another. -/
namespace CMakeManual.Script
open Text
open scoped List

/-- A quote or a bracket that is not closed. -/
def Form.RunsOut : Form → Prop
  | .openQuote | .openBracket _ => True
  | _ => False

theorem bracketLexeme_runsOut {form : Form} (hform : ¬ form.RunsOut) {before : List Char}
    {level : Nat} {body : List Char} (h : (bracketLexeme form before level body).1.form.RunsOut) :
    (bracketLexeme form before level body).2 = [] := by
  unfold bracketLexeme at h ⊢
  split at h
  · exact absurd h hform
  · rfl

theorem commentLexeme_runsOut {cs : List Char} (h : (commentLexeme cs).1.form.RunsOut) :
    (commentLexeme cs).2 = [] := by
  unfold commentLexeme at h ⊢
  split at h
  · exact bracketLexeme_runsOut id h
  · exact absurd h id

theorem argumentLexeme_runsOut {c : Char} {cs : List Char}
    (h : (argumentLexeme c cs).1.form.RunsOut) : (argumentLexeme c cs).2 = [] := by
  unfold argumentLexeme at h ⊢
  split at h
  next hq =>
    rw [if_pos hq]
    split at h
    · exact absurd h id
    · rfl
  next hq =>
    rw [if_neg hq]
    split at h
    · exact bracketLexeme_runsOut id h
    · split at h
      · exact absurd h id
      · rfl

/-- Only comments and arguments can run to the end. -/
theorem nextLexeme_runsOut_cases (depth : Nat) (c : Char) (cs : List Char) :
    nextLexeme depth c cs = commentLexeme cs ∨ nextLexeme depth c cs = argumentLexeme c cs ∨
      ¬ (nextLexeme depth c cs).1.form.RunsOut := by
  unfold nextLexeme
  repeat' split
  all_goals first | exact .inl rfl | exact .inr (.inl rfl) | exact .inr (.inr id)

/-- The step: nothing is left behind a quote or bracket that is not closed. -/
theorem nextLexeme_runsOut {depth : Nat} {c : Char} {cs : List Char}
    (h : (nextLexeme depth c cs).1.form.RunsOut) : (nextLexeme depth c cs).2 = [] := by
  rcases nextLexeme_runsOut_cases depth c cs with hn | hn | hn
  · rw [hn] at h ⊢
    exact commentLexeme_runsOut h
  · rw [hn] at h ⊢
    exact argumentLexeme_runsOut h
  · exact absurd h hn

/-- The whole scan: a quote or bracket that is not closed is the last lexeme. -/
theorem lexemesFrom_runsOut {depth : Nat} {cs : List Char} {before after : List Lexeme} {l : Lexeme}
    (h : lexemesFrom depth cs = before ++ l :: after) (hl : l.form.RunsOut) : after = [] := by
  induction before generalizing depth cs with
  | nil =>
    cases cs with
    | nil => simp [lexemesFrom] at h
    | cons c cs =>
      rw [lexemesFrom_cons, List.nil_append, List.cons.injEq] at h
      obtain ⟨rfl, rfl⟩ := h
      rw [nextLexeme_runsOut hl, lexemesFrom]
  | cons b before ih =>
    cases cs with
    | nil => simp [lexemesFrom] at h
    | cons c cs =>
      rw [lexemesFrom_cons, List.cons_append, List.cons.injEq] at h
      exact ih h.2

theorem lexemes_runsOut {cs : List Char} {before after : List Lexeme} {l : Lexeme}
    (h : lexemes cs = before ++ l :: after) (hl : l.form.RunsOut) : after = [] := by
  rcases lexemes_cases cs with ⟨rest, -, hs⟩ | ⟨-, hs⟩
  · rw [hs] at h
    cases before with
    | nil =>
      rw [List.nil_append, List.cons.injEq] at h
      rw [← h.1] at hl
      exact absurd hl id
    | cons b before =>
      rw [List.cons_append, List.cons.injEq] at h
      exact lexemesFrom_runsOut h.2 hl
  · rw [hs] at h
    exact lexemesFrom_runsOut h hl

/-- Lexemes that are not empty start one behind the other. -/
theorem place_ordered (p : Position) {ls : List Lexeme} (h : ∀ l ∈ ls, l.text ≠ []) :
    (place p ls).Pairwise fun x y => x.position.offset < y.position.offset := by
  induction ls generalizing p with
  | nil => simp [place]
  | cons l ls ih =>
    rw [place, List.pairwise_cons]
    refine ⟨?_, ih _ fun m hm => h m (by simp [hm])⟩
    intro y hy
    obtain ⟨before, after, -, hp⟩ := mem_place hy
    have hsize := byteLength_pos (h l (by simp))
    simp only [hp, Position.after]
    omega

/-- What a scan reports. Offsets increase; every fault is one stray character, but for the last,
which may be a quote or bracket that runs to the end of the source. -/
structure OrderlyScan (source : String) (faults : List Fault) : Prop where
  increasing : faults.Pairwise fun f g => f.span.start < g.span.start
  each : ∀ before f after, faults = before ++ f :: after →
    (∃ c, f.cause = .unexpectedCharacter c ∧ SliceAt source f.span (String.singleton c)) ∨
    after = [] ∧ f.span.stop = source.utf8ByteSize ∧
      (f.cause = .unterminatedQuote ∨ ∃ level, f.cause = .unterminatedBracket level)

theorem scan_eq_error {source : String} {faults : List Fault} (h : scan source = .error faults) :
    faults = (place .first (lexemes source.toList)).filterMap Placed.fault? := by
  simp only [scan] at h
  split at h
  · simp at h
  · exact (Except.error.inj h).symm

/-- A fault among others comes from a lexeme among others. -/
theorem placed_of_fault {source : String} {faults before after : List Fault} {f : Fault}
    (h : scan source = .error faults) (hf : faults = before ++ f :: after) :
    ∃ front x back, place .first (lexemes source.toList) = front ++ x :: back ∧
      x.fault? = some f ∧ back.filterMap Placed.fault? = after := by
  rw [scan_eq_error h] at hf
  obtain ⟨front, others, hp, -, hothers⟩ := List.filterMap_eq_append_iff.mp hf
  obtain ⟨clean, x, back, rfl, -, hx, hback⟩ := List.filterMap_eq_cons_iff.mp hothers
  exact ⟨front ++ clean, x, back, by rw [hp, List.append_assoc], hx, hback⟩

/-- What is wrong with a lexeme is that it is a stray character or that it is not closed. -/
theorem Lexeme.cause?_cases {l : Lexeme} {cause : Cause} (h : l.cause? = some cause) :
    (l.form = .stray ∧ ∃ c, l.text.head? = some c ∧ cause = .unexpectedCharacter c) ∨
    (l.form.RunsOut ∧
      (cause = .unterminatedQuote ∨ ∃ level, cause = .unterminatedBracket level)) := by
  cases hf : l.form <;> simp [Lexeme.cause?, hf] at h
  case stray =>
    obtain ⟨c, hc, rfl⟩ := h
    exact .inl ⟨rfl, c, hc, rfl⟩
  case openQuote => exact .inr ⟨trivial, .inl h.symm⟩
  case openBracket level => exact .inr ⟨trivial, .inr ⟨level, h.symm⟩⟩

/-- A lexeme that is not closed reaches to the end of the source. -/
theorem Placed.stop_of_runsOut {source : String} {x : Placed}
    (hx : x ∈ place .first (lexemes source.toList)) (h : x.lexeme.form.RunsOut) :
    x.span.stop = source.utf8ByteSize := by
  obtain ⟨before, after, hl, hp⟩ := mem_place hx
  obtain rfl := lexemes_runsOut hl h
  have htext := lexemes_text source.toList
  rw [hl, List.flatMap_append, List.flatMap_singleton] at htext
  show (x.position.after x.lexeme.text).offset = source.utf8ByteSize
  rw [hp, ← Position.after_append, htext, offset_first_after, byteLength_toList]

theorem scan_orderly {source : String} {faults : List Fault} (h : scan source = .error faults) :
    OrderlyScan source faults where
  increasing := by
    have hplaced : (place .first (lexemes source.toList)).Pairwise
        fun x y => x.position.offset < y.position.offset := by
      apply place_ordered
      intro l hl
      obtain ⟨before, after, hs⟩ := List.append_of_mem hl
      exact (lexeme_of_lexemes hs).1
    rw [scan_eq_error h]
    apply hplaced.filterMap
    intro x y hxy f hf g hg
    obtain ⟨cause, -, rfl⟩ := Option.map_eq_some_iff.mp hf
    obtain ⟨cause', -, rfl⟩ := Option.map_eq_some_iff.mp hg
    exact hxy
  each := by
    intro before f after hf
    obtain ⟨front, x, back, hp, hx, hback⟩ := placed_of_fault h hf
    have hmem : x ∈ place .first (lexemes source.toList) := by simp [hp]
    have hlexemes : lexemes source.toList =
        front.map Placed.lexeme ++ x.lexeme :: back.map Placed.lexeme := by
      rw [← place_lexeme .first (lexemes source.toList), hp, List.map_append, List.map_cons]
    obtain ⟨cause, hcause, rfl⟩ := Option.map_eq_some_iff.mp hx
    rcases Lexeme.cause?_cases hcause with ⟨hform, c, hc, rfl⟩ | ⟨hruns, hkind⟩
    · left
      obtain ⟨d, hd⟩ : ∃ d, x.lexeme.text = [d] := by
        rcases (lexeme_of_lexemes hlexemes).2 with hfits | ⟨-, hmark⟩
        · simpa only [Lexeme.FitsAt, hform] using hfits
        · exact ⟨_, congrArg Lexeme.text hmark⟩
      obtain rfl : d = c := by simpa [hd] using hc
      have hslice := (placed_textAt hmem).sliceAt
      rw [hd, ← String.singleton_eq_ofList] at hslice
      exact ⟨d, rfl, hslice⟩
    · right
      have hlast : back = [] := List.map_eq_nil_iff.mp (lexemes_runsOut hlexemes hruns)
      rw [hlast] at hback
      exact ⟨hback.symm, Placed.stop_of_runsOut hmem hruns, hkind⟩

/-- The statement that starts with `t` is given up: its name has no parenthesis, or it starts with
one. -/
def Fault.GivesUp (f : Fault) (t : Token) : Prop :=
  f.span = t.span ∧
    ((∃ name, t.kind = .ident name ∧ f.cause = .missingOpenParen name) ∨
      (t.kind = .leftParen ∨ t.kind = .rightParen) ∧ f.cause = .unexpectedToken t.kind)

/-- What a reading reports about tokens. Statements are passed over up to one that is at fault. If
that is given up, reading goes on at the next line end, if there is one; an invocation that is not
closed takes everything behind it. -/
inductive Reports : List Token → List Fault → Prop
  | nothing (ts : List Token) : Reports ts []
  | passed {front ts : List Token} {fs : List Fault} (hd : tokenDepth 0 front = 0)
      (h : Reports ts fs) : Reports (front ++ ts) fs
  | lastLine {t : Token} {f : Fault} (hf : f.GivesUp t) (behind : List Token) :
      Reports (t :: behind) [f]
  | line {t n : Token} {skipped rest : List Token} {f : Fault} {fs : List Fault} (hf : f.GivesUp t)
      (hd : tokenDepth 0 (t :: skipped) = 0) (hn : n.kind = .newline) (h : Reports (n :: rest) fs) :
      Reports (t :: skipped ++ n :: rest) (f :: fs)
  | unclosed {t last : Token} {behind : List Token} {f : Fault} {name : String}
      (hk : t.kind = .ident name) (hc : f.cause = .unterminatedInvocation name)
      (hs : f.span = t.span.join last.span) (hl : behind.getLast? = some last)
      (hd : 0 < tokenDepth 0 (t :: behind)) : Reports (t :: behind) [f]

/-- Giving up a statement leaves the faults of the lines behind it as they are. -/
theorem reports_givenUp {t : Token} {ts : List Token} {f : Fault} (hf : f.GivesUp t)
    (hts : InStep (t.kind.depthAfter 0) ts)
    (h : Reports (nextLine ts) (readFrom true (nextLine ts)).faults) :
    Reports (t :: ts) (f :: (readFrom true (nextLine ts)).faults) := by
  rcases hts.nextLine_cases with ⟨last, hr, hk⟩ | ⟨skipped, n, rest, rfl, hr, hn, hd, -⟩
  · have hend : (readFrom true [last]).faults = [] := by simp [readFrom, hk]
    rw [hr, hend]
    exact .lastLine hf ts
  · rw [hr] at h ⊢
    exact .line hf hd hn h

/-- What is wrong with a statement: its name has no parenthesis and it is given up, or it runs to
the end of the file. -/
theorem statement_fault_cases {name : String} {t : Token} (hk : t.kind = .ident name)
    {ts : List Token} (hts : InStep 0 ts) {f : Fault} (h : (statement name t ts).1 = .error f) :
    (f.GivesUp t ∧ (statement name t ts).2 = nextLine ts) ∨
    ((statement name t ts).2 = [] ∧ f.cause = .unterminatedInvocation name ∧
      0 < tokenDepth 0 (t :: ts) ∧
      ∃ last, ts.getLast? = some last ∧ f.span = t.span.join last.span) := by
  cases ts with
  | nil => exact absurd rfl hts.ne_nil
  | cons paren ts =>
    by_cases hp : paren.kind = .leftParen
    · cases hl : argumentList 0 ts with
      | closed arguments close rest => simp [statement, hp, hl] at h
      | unclosed stop rest =>
        right
        have hbody := (hts.tail (by simp [hp])).2
        rw [hp] at hbody
        obtain ⟨last, hlast, -, rfl, rfl, hpos⟩ := hbody.unclosed hl
        obtain rfl : f = ⟨.unterminatedInvocation name, t.span.join last.span, t.line⟩ := by
          simpa [statement, hp, hl, eq_comm] using h
        refine ⟨by simp [statement, hp, hl, nextLine], rfl, ?_, last, ?_, rfl⟩
        · show 0 < tokenDepth (paren.kind.depthAfter (t.kind.depthAfter 0)) ts
          rw [hk, hp]
          exact hpos
        · rw [List.getLast?_cons, hlast]
          rfl
    · left
      obtain rfl : f = ⟨.missingOpenParen name, t.span, t.line⟩ := by
        simpa [statement, hp, eq_comm] using h
      exact ⟨⟨rfl, .inl ⟨name, hk, rfl⟩⟩, by simp [statement, hp]⟩

/-- A token that leaves the reader outside parentheses is passed over. -/
theorem reports_passed {t : Token} {ts : List Token} {fs : List Fault} (h : InStep 0 (t :: ts))
    (he : t.kind ≠ .endOfFile) (hd : t.kind.depthAfter 0 = 0) (ih : InStep 0 ts → Reports ts fs) :
    Reports (t :: ts) fs := by
  have htail := (h.tail he).2
  rw [hd] at htail
  show Reports ([t] ++ ts) fs
  exact .passed hd (ih htail)

/-- The run: what a reading of tokens in step reports. -/
theorem readFrom_reports {started : Bool} {ts : List Token} (h : InStep 0 ts) :
    Reports ts (readFrom started ts).faults := by
  fun_induction readFrom started ts with
  | case1 => exact .nothing []
  | case2 => exact .nothing _
  | case3 t ts hk ih =>
    exact reports_passed h (by simp [hk]) (by simp [hk, TokenKind.depthAfter]) ih
  | case4 _ t ts hk _ ih =>
    exact reports_passed h (by simp [hk]) (by simp [hk, TokenKind.depthAfter]) ih
  | case5 _ t ts text hk ih =>
    exact reports_passed h (by simp [hk]) (by simp [hk, TokenKind.depthAfter]) ih
  | case6 _ t ts text hk ih =>
    exact reports_passed h (by simp [hk]) (by simp [hk, TokenKind.depthAfter]) ih
  | case7 _ t ts name hk read command hr ih =>
    obtain ⟨c, hc⟩ := call_of_statement hk hr
    rw [hc] at h ⊢
    have hrest := h.behind fun u hu => Item.ne_endOfFile hu
    rw [Item.tokenDepth] at hrest
    exact .passed (Item.tokenDepth _) (ih hrest)
  | case8 _ t ts name hk read fault hr ih =>
    have htail := (h.tail (by simp [hk])).2
    have hdepth : t.kind.depthAfter 0 = 0 := by simp [hk, TokenKind.depthAfter]
    have hbehind : InStep 0 ts := by rwa [hdepth] at htail
    rcases statement_fault_cases hk hbehind hr with
      ⟨hf, hrest⟩ | ⟨hrest, hcause, hpos, last, hlast, hspan⟩
    · have hread : read.2 = nextLine ts := hrest
      rw [hread] at ih ⊢
      exact reports_givenUp hf htail (ih hbehind.nextLine)
    · have hread : readFrom true read.2 = ⟨[], []⟩ := by
        rw [show read.2 = [] from hrest, readFrom]
      rw [hread]
      exact .unclosed hk hcause hspan hlast hpos
  | case9 _ t ts h1 h2 h3 h4 h5 ih =>
    obtain ⟨hfits, htail⟩ := h.tail h1
    have hparen : t.kind = .leftParen ∨ t.kind = .rightParen := by
      cases hk : t.kind with
      | leftParen => exact .inl rfl
      | rightParen => exact .inr rfl
      | ident name => exact absurd hk (h5 name)
      | unquoted text | quoted text | bracket text =>
        rw [hk] at hfits
        exact absurd hfits (Nat.lt_irrefl 0)
      | lineComment text => exact absurd hk (h3 text)
      | bracketComment text => exact absurd hk (h4 text)
      | newline => exact absurd hk h2
      | endOfFile => exact absurd hk h1
    exact reports_givenUp ⟨rfl, .inr ⟨hparen, rfl⟩⟩ htail (ih htail.nextLine)

/-- Tokens that start one behind the other. -/
def StartInOrder (ts : List Token) : Prop := ts.Pairwise fun t u => t.span.start < u.span.start

theorem scan_startInOrder {source : String} {tokens : List Token} (h : scan source = .ok tokens) :
    StartInOrder tokens := by
  have horder := scan_ordered h
  obtain ⟨-, rfl⟩ := scan_eq_ok.mp h
  obtain ⟨hbody, -, hend⟩ := List.pairwise_append.mp horder
  refine List.pairwise_append.mpr ⟨?_, by simp, ?_⟩
  · apply hbody.imp_of_mem
    intro t u ht _ htu
    exact Nat.lt_of_lt_of_le (sliceAt_of_mem ht).2.2 htu
  · intro t ht u hu
    exact Nat.lt_of_lt_of_le (sliceAt_of_mem ht).2.2 (hend t ht u hu)

section Reported
variable {ts : List Token} {fs : List Fault}

/-- A fault starts where a token does that is no line end. -/
theorem Reports.starts (h : Reports ts fs) (ho : StartInOrder ts) :
    ∀ f ∈ fs, ∃ t ∈ ts, t.kind ≠ .newline ∧ f.span.start = t.span.start := by
  have givesUp {f : Fault} {t : Token} (hf : f.GivesUp t) :
      t.kind ≠ .newline ∧ f.span.start = t.span.start := by
    obtain ⟨hspan, ⟨name, hk, -⟩ | ⟨hk | hk, -⟩⟩ := hf <;> simp [hspan, hk]
  induction h with
  | nothing ts => simp
  | @passed front ts fs _ _ ih =>
    intro f hf
    obtain ⟨t, ht, hstart⟩ := ih (ho.sublist (List.sublist_append_right front ts)) f hf
    exact ⟨t, List.mem_append_right front ht, hstart⟩
  | @lastLine t f hgives behind =>
    intro g hg
    obtain rfl := List.mem_singleton.mp hg
    exact ⟨t, by simp, givesUp hgives⟩
  | @line t n skipped rest f fs hgives _ _ _ ih =>
    intro g hg
    rcases List.mem_cons.mp hg with rfl | hg
    · exact ⟨t, by simp, givesUp hgives⟩
    · obtain ⟨u, hu, hstart⟩ := ih (ho.sublist (List.sublist_append_right _ _)) g hg
      exact ⟨u, List.mem_append_right _ hu, hstart⟩
  | @unclosed t last behind f name hk _ hs hl _ =>
    intro g hg
    obtain rfl := List.mem_singleton.mp hg
    have hlt : t.span.start < last.span.start :=
      List.rel_of_pairwise_cons ho (List.mem_of_getLast? hl)
    refine ⟨t, by simp, by simp [hk], ?_⟩
    rw [hs, Span.join]
    exact Nat.min_eq_left (Nat.le_of_lt hlt)

/-- A line end stands between any two faults. -/
theorem Reports.apart (h : Reports ts fs) (ho : StartInOrder ts) :
    fs.Pairwise fun f g => ∃ n ∈ ts, n.kind = .newline ∧ f.span.start < n.span.start ∧
      n.span.start < g.span.start := by
  induction h with
  | nothing ts => exact .nil
  | @passed front ts fs _ _ ih =>
    apply (ih (ho.sublist (List.sublist_append_right front ts))).imp
    rintro f g ⟨n, hn, hbetween⟩
    exact ⟨n, List.mem_append_right front hn, hbetween⟩
  | lastLine => exact List.pairwise_singleton _ _
  | @line t n skipped rest f fs hgives _ hn hrest ih =>
    have hlater : StartInOrder (n :: rest) := ho.sublist (List.sublist_append_right _ _)
    rw [List.pairwise_cons]
    constructor
    · intro g hg
      obtain ⟨u, hu, hline, hstart⟩ := hrest.starts hlater g hg
      have hbehind : u ∈ rest := by
        rcases List.mem_cons.mp hu with rfl | hu
        · exact absurd hn hline
        · exact hu
      refine ⟨n, by simp, hn, ?_, ?_⟩
      · rw [hgives.1]
        exact List.rel_of_pairwise_cons ho (by simp)
      · rw [hstart]
        exact List.rel_of_pairwise_cons hlater hbehind
    · apply (ih hlater).imp
      rintro f g ⟨m, hm, hbetween⟩
      exact ⟨m, List.mem_append_right _ hm, hbetween⟩
  | unclosed => exact List.pairwise_singleton _ _

/-- An invocation that is not closed is the last fault, reaches from its name to the last token and
leaves a parenthesis open. -/
theorem Reports.unterminated (h : Reports ts fs) {before after : List Fault} {f : Fault}
    {name : String} (hfs : fs = before ++ f :: after)
    (hf : f.cause = .unterminatedInvocation name) :
    after = [] ∧ 0 < tokenDepth 0 ts ∧ ∃ t last, t ∈ ts ∧ t.kind = .ident name ∧
      ts.getLast? = some last ∧ f.span = t.span.join last.span := by
  have notGivenUp {t : Token} : ¬ f.GivesUp t := by
    rintro ⟨-, ⟨_, -, hc⟩ | ⟨-, hc⟩⟩ <;> simp [hf] at hc
  induction h generalizing before with
  | nothing ts => simp at hfs
  | @passed front ts fs hd _ ih =>
    obtain ⟨hlast, hpos, t, last, ht, hk, hl, hs⟩ := ih hfs
    refine ⟨hlast, ?_, t, last, List.mem_append_right front ht, hk, ?_, hs⟩
    · rwa [tokenDepth_append, hd]
    · rw [List.getLast?_append, hl, Option.some_or]
  | @lastLine t g hgives behind =>
    cases before with
    | nil =>
      obtain rfl := (List.cons.inj hfs).1
      exact absurd hgives notGivenUp
    | cons b before => simp at hfs
  | @line t n skipped rest g fs hgives hd _ _ ih =>
    cases before with
    | nil =>
      obtain rfl := (List.cons.inj hfs).1
      exact absurd hgives notGivenUp
    | cons b before =>
      obtain ⟨hlast, hpos, u, last, hu, hk, hl, hs⟩ := ih (List.cons.inj hfs).2
      refine ⟨hlast, ?_, u, last, List.mem_append_right _ hu, hk, ?_, hs⟩
      · rwa [tokenDepth_append, hd]
      · rw [List.getLast?_append, hl, Option.some_or]
  | @unclosed t last behind g other hk hc hs hl hd =>
    cases before with
    | nil =>
      obtain ⟨rfl, hnil⟩ := List.cons.inj hfs
      obtain rfl : other = name := by simpa [hc] using hf
      refine ⟨hnil.symm, hd, t, last, by simp, hk, ?_, hs⟩
      rw [List.getLast?_cons, hl, Option.getD_some]
    | cons b before => simp at hfs

/-- A token that is reported as such is a parenthesis. -/
theorem Reports.unexpected (h : Reports ts fs) {f : Fault} (hf : f ∈ fs) {found : TokenKind}
    (hc : f.cause = .unexpectedToken found) :
    (found = .leftParen ∨ found = .rightParen) ∧ ∃ t ∈ ts, t.kind = found ∧ f.span = t.span := by
  have givesUp {t : Token} (hgives : f.GivesUp t) :
      (found = .leftParen ∨ found = .rightParen) ∧ t.kind = found ∧ f.span = t.span := by
    obtain ⟨hspan, ⟨name, -, hm⟩ | ⟨hk, hm⟩⟩ := hgives
    · simp [hm] at hc
    · obtain rfl : t.kind = found := by simpa [hm] using hc
      exact ⟨hk, rfl, hspan⟩
  induction h with
  | nothing ts => simp at hf
  | @passed front ts fs _ _ ih =>
    obtain ⟨hparen, t, ht, hkind⟩ := ih hf
    exact ⟨hparen, t, List.mem_append_right front ht, hkind⟩
  | @lastLine t g hgives behind =>
    obtain rfl := List.mem_singleton.mp hf
    exact ⟨(givesUp hgives).1, t, by simp, (givesUp hgives).2⟩
  | @line t n skipped rest g fs hgives _ _ _ ih =>
    rcases List.mem_cons.mp hf with rfl | hf
    · exact ⟨(givesUp hgives).1, t, by simp, (givesUp hgives).2⟩
    · obtain ⟨hparen, u, hu, hkind⟩ := ih hf
      exact ⟨hparen, u, List.mem_append_right _ hu, hkind⟩
  | unclosed hk hm =>
    obtain rfl := List.mem_singleton.mp hf
    simp [hm] at hc

end Reported

/-- What a reading reports. Offsets increase, and a line end stands between any two faults, so at
most one starts between line ends that follow each other. Only the last can be an invocation that is
not closed: it reaches from its name to the end of the source, which ends inside parentheses. A
token that is reported as such is a parenthesis. -/
structure OrderlyReading (source : String) (tokens : List Token) (faults : List Fault) : Prop where
  increasing : faults.Pairwise fun f g => f.span.start < g.span.start
  apart : faults.Pairwise fun f g => ∃ n ∈ tokens, n.kind = .newline ∧
    f.span.start < n.span.start ∧ n.span.start < g.span.start
  unterminated : ∀ before f after name, faults = before ++ f :: after →
    f.cause = .unterminatedInvocation name →
      after = [] ∧ 0 < tokenDepth 0 tokens ∧
      ∃ t ∈ tokens, t.kind = .ident name ∧ f.span = ⟨t.span.start, source.utf8ByteSize⟩
  unexpected : ∀ f ∈ faults, ∀ found, f.cause = .unexpectedToken found →
    (found = .leftParen ∨ found = .rightParen) ∧ ∃ t ∈ tokens, t.kind = found ∧ f.span = t.span

theorem SliceAt.bounds {source text : String} {span : Span} (h : SliceAt source span text) :
    span.start ≤ span.stop ∧ span.stop ≤ source.utf8ByteSize := by
  obtain ⟨before, after, rfl, hstart, hstop⟩ := h
  rw [String.utf8ByteSize_append, String.utf8ByteSize_append]
  omega

theorem parse_orderly {source : String} {tokens : List Token} {faults : List Fault}
    (hs : scan source = .ok tokens) (h : parse tokens = .error faults) :
    OrderlyReading source tokens faults := by
  have hfaults : (readFrom false tokens).faults = faults := by
    rw [← faultsOf_parse, h]
    rfl
  have hreports : Reports tokens faults := hfaults ▸ readFrom_reports (inStep_of_scan hs)
  have hstarts := scan_startInOrder hs
  have hapart := hreports.apart hstarts
  refine ⟨hapart.imp ?_, hapart, ?_, ?_⟩
  · rintro f g ⟨n, -, -, hf, hg⟩
    exact Nat.lt_trans hf hg
  · intro before f after name hsplit hcause
    obtain ⟨hlast, hpos, t, last, ht, hk, hend, hspan⟩ := hreports.unterminated hsplit hcause
    refine ⟨hlast, hpos, t, ht, hk, ?_⟩
    have hsize : last.span = ⟨source.utf8ByteSize, source.utf8ByteSize⟩ := by
      obtain ⟨-, rfl⟩ := scan_eq_ok.mp hs
      rw [List.getLast?_concat, Option.some.injEq] at hend
      rw [← hend, endToken_span]
    obtain ⟨hstart, hstop⟩ := (scan_spelled hs t ht).bounds
    rw [hspan, hsize]
    simp only [Span.join, Span.mk.injEq]
    omega
  · intro f hf found hc
    exact hreports.unexpected hf hc

/-- The faults of a script come in order, those of its scan and those of its reading. -/
theorem faults_orderly (source : String) :
    (∀ faults, scan source = .error faults → OrderlyScan source faults) ∧
    ∀ tokens faults, scan source = .ok tokens → parse tokens = .error faults →
      OrderlyReading source tokens faults :=
  ⟨fun _ h => scan_orderly h, fun _ _ hs h => parse_orderly hs h⟩

/-- Stray characters in front of a quote that is not closed; and a name without its parentheses, a
parenthesis too many and an invocation that is not closed, each on a line of its own. -/
theorem faults_orderly_mixed :
    OrderlyScan "\u00e9 $\nf(\x22a" [⟨.unexpectedCharacter '\u00e9', ⟨0, 2⟩, 1⟩,
      ⟨.unexpectedCharacter '$', ⟨3, 4⟩, 1⟩, ⟨.unterminatedQuote, ⟨7, 9⟩, 2⟩] ∧
    OrderlyReading "f g()\n)\nk(1"
      [⟨.ident "f", ⟨0, 1⟩, 1⟩, ⟨.ident "g", ⟨2, 3⟩, 1⟩, ⟨.leftParen, ⟨3, 4⟩, 1⟩,
        ⟨.rightParen, ⟨4, 5⟩, 1⟩, ⟨.newline, ⟨5, 6⟩, 1⟩, ⟨.rightParen, ⟨6, 7⟩, 2⟩,
        ⟨.newline, ⟨7, 8⟩, 2⟩, ⟨.ident "k", ⟨8, 9⟩, 3⟩, ⟨.leftParen, ⟨9, 10⟩, 3⟩,
        ⟨.unquoted "1", ⟨10, 11⟩, 3⟩, ⟨.endOfFile, ⟨11, 11⟩, 3⟩]
      [⟨.missingOpenParen "f", ⟨0, 1⟩, 1⟩, ⟨.unexpectedToken .rightParen, ⟨6, 7⟩, 2⟩,
        ⟨.unterminatedInvocation "k", ⟨8, 11⟩, 3⟩] := by
  constructor
  · exact (faults_orderly _).1 _ (by decide +kernel)
  · exact (faults_orderly _).2 _ _ (by decide +kernel) (by decide +kernel)

end CMakeManual.Script
