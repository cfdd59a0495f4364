import CMakeManual.Proofs.Script.Recovery

/-! Nodes that were read can be written and read again. Every name, argument and comment that is
read from a script is spelled so that it is one lexeme wherever it stands, whatever stood around it
in the script. So the canonical text of the nodes gives them back. -/
namespace CMakeManual.Script
open Text

theorem quotedTail_of_quotedRun {cs run rest : List Char} (h : quotedRun cs = some (run, rest)) :
    QuotedTail run := by
  fun_induction quotedRun cs generalizing run rest with
  | case1 => simp at h
  | case2 c r ih =>
    obtain ⟨⟨u, v⟩, hc, ⟨⟩⟩ := Option.map_eq_some_iff.mp h
    exact .escape c (ih hc)
  | case3 c r _ hq =>
    obtain rfl : c = '\x22' := by simpa using hq
    simp only [Option.some.injEq, Prod.mk.injEq] at h
    rw [← h.1]
    exact .close
  | case4 c r hlast hq ih =>
    obtain ⟨⟨u, v⟩, hc, ⟨⟩⟩ := Option.map_eq_some_iff.mp h
    have hb : c ≠ '\\' := by
      rintro rfl
      cases r with
      | nil => simp [quotedRun] at hc
      | cons d r => exact hlast d r rfl rfl
    exact .char hb (by simpa using hq) (ih hc)

/-- The rest of an unquoted argument, from inside a quoted text on if `inQuotes` is set. -/
def PiecesFrom : (inQuotes : Bool) → List Char → Prop
  | false, cs => UnquotedPieces cs
  | true, cs => ∃ q r, cs = q ++ r ∧ QuotedTail q ∧ UnquotedPieces r

theorem PiecesFrom.escape {inQuotes : Bool} (c : Char) {r : List Char}
    (h : PiecesFrom inQuotes r) : PiecesFrom inQuotes ('\\' :: c :: r) := by
  cases inQuotes with
  | false => exact UnquotedPieces.escape c h
  | true =>
    obtain ⟨q, s, rfl, hq, hs⟩ := h
    exact ⟨'\\' :: c :: q, s, rfl, .escape c hq, hs⟩

/-- A quote opens or closes a quoted text, any other character goes on with what there is. -/
theorem PiecesFrom.char {inQuotes : Bool} {c : Char} {r : List Char} (hb : c ≠ '\\')
    (he : inQuotes = false → endsUnquoted c = false)
    (h : PiecesFrom (inQuotes != (c == '\x22')) r) : PiecesFrom inQuotes (c :: r) := by
  by_cases hq : c = '\x22'
  · subst hq
    cases inQuotes with
    | false =>
      obtain ⟨q, s, rfl, hq, hs⟩ := h
      exact UnquotedPieces.quoted hq hs
    | true => exact ⟨['\x22'], r, rfl, .close, h⟩
  · rw [beq_eq_false_iff_ne.mpr hq, Bool.bne_false] at h
    cases inQuotes with
    | false => exact UnquotedPieces.char hb hq (he rfl) h
    | true =>
      obtain ⟨q, s, rfl, hq', hs⟩ := h
      exact ⟨c :: q, s, rfl, .char hb hq hq', hs⟩

/-- An unquoted argument that something follows is made of whole pieces. At the end of a script it
could end in a backslash that takes nothing with it. -/
theorem piecesFrom_of_unquotedRun {inQuotes : Bool} {cs run rest : List Char}
    (h : unquotedRun inQuotes cs = some (run, rest)) (hr : rest ≠ []) :
    PiecesFrom inQuotes run := by
  fun_induction unquotedRun inQuotes cs generalizing run rest with
  | case1 => simp at h
  | case2 => simp_all
  | case3 inQuotes c r ih =>
    obtain ⟨⟨u, v⟩, hc, ⟨⟩⟩ := Option.map_eq_some_iff.mp h
    exact (ih hc hr).escape c
  | case4 inQuotes c r _ hend =>
    simp only [Option.some.injEq, Prod.mk.injEq] at h
    rw [← h.1]
    simp only [Bool.and_eq_true, Bool.not_eq_eq_eq_not, Bool.not_true] at hend
    rw [hend.1]
    exact .nil
  | case5 inQuotes c r hlast hend ih =>
    obtain ⟨⟨u, v⟩, hc, ⟨⟩⟩ := Option.map_eq_some_iff.mp h
    have hb : c ≠ '\\' := by
      rintro rfl
      cases r with
      | nil => exact hr (List.append_eq_nil_iff.mp (unquotedRun_append hc)).2
      | cons d r => exact hlast d r rfl rfl
    refine PiecesFrom.char hb ?_ (ih hc hr)
    rintro rfl
    simpa using hend

/-- A text is cut behind a mark, and the mark does not occur before. -/
theorem first_of_cutAfter {mark cs front rest : List Char} (hm : mark ≠ [])
    (h : cutAfter mark cs = some (front, rest)) :
    ∃ body, front = body ++ mark ∧ ∀ u v, front = u ++ (mark ++ v) → v = [] := by
  induction cs generalizing front rest with
  | nil => simp [cutAfter, hm] at h
  | cons c r ih =>
    have happend := cutAfter_append h
    simp only [cutAfter] at h
    split at h
    next =>
      simp only [Option.some.injEq, Prod.mk.injEq] at h
      obtain ⟨rfl, -⟩ := h
      refine ⟨[], rfl, ?_⟩
      intro u v huv
      have hlength := congrArg List.length huv
      simp only [List.length_append] at hlength
      exact List.length_eq_zero_iff.mp (by omega)
    next hfound =>
      obtain ⟨⟨u, v⟩, hc, ⟨⟩⟩ := Option.map_eq_some_iff.mp h
      obtain ⟨body, rfl, hfirst⟩ := ih hc
      refine ⟨c :: body, rfl, ?_⟩
      intro w x hwx
      cases w with
      | nil =>
        -- The mark would stand at the very start, where it was not found.
        apply absurd (List.isPrefixOf_iff_prefix.mpr _) hfound
        rw [← happend, hwx]
        exact ⟨x ++ v, by simp⟩
      | cons d w => exact hfirst w x (List.cons.inj hwx).2

theorem bracketText_of_cutAfter {level : Nat} {cs inside rest : List Char}
    (h : cutAfter (bracketCloser level) cs = some (inside, rest)) :
    BracketText (bracketOpener level ++ inside) := by
  obtain ⟨body, rfl, hfirst⟩ := first_of_cutAfter (by simp [bracketCloser]) h
  exact ⟨level, body, rfl, hfirst⟩

theorem unbracketed_of_bracketOpen? {cs : List Char} (h : bracketOpen? cs = none) :
    Unbracketed cs := by
  rintro level ⟨body, rfl⟩
  simp [bracketOpen?_opener] at h

theorem Unbracketed.front {cs : List Char} (ds : List Char) (h : Unbracketed (cs ++ ds)) :
    Unbracketed cs := by
  intro level hl
  exact h level (hl.trans (List.prefix_append cs ds))

/-- A token with the spelling of its kind. An unquoted argument is no parenthesis. -/
def TokenKind.Spelled : TokenKind → Prop
  | .ident name => NameText name.toList
  | .unquoted text => ArgumentText .unquoted text.toList ∧ text ≠ "(" ∧ text ≠ ")"
  | .quoted text => ArgumentText .quoted text.toList
  | .bracket text => ArgumentText .bracket text.toList
  | .lineComment text => CommentText .line text.toList
  | .bracketComment text => CommentText .bracket text.toList
  | .leftParen | .rightParen | .newline | .endOfFile => True

def Lexeme.Spelled (l : Lexeme) : Prop := ∀ kind ∈ l.kind?, kind.Spelled

theorem bracketLexeme_spelled {form : Form} {before : List Char}
    (h : ∀ text, BracketText text → Lexeme.Spelled ⟨form, before ++ text⟩) (level : Nat)
    (body : List Char) : (bracketLexeme form before level body).1.Spelled := by
  unfold bracketLexeme
  split
  next inside rest hc =>
    rw [List.append_assoc]
    exact h _ (bracketText_of_cutAfter hc)
  next => simp [Lexeme.Spelled, Lexeme.kind?]

theorem commentLexeme_spelled (cs : List Char) : (commentLexeme cs).1.Spelled := by
  unfold commentLexeme
  split
  next level body ho =>
    apply bracketLexeme_spelled
    intro text ht
    simpa [Lexeme.Spelled, Lexeme.kind?, TokenKind.Spelled] using CommentText.bracket ht
  next ho =>
    have hline : '\n' ∉ cs.takeWhile (· != '\n') := by
      intro hn
      simpa using List.all_eq_true.mp List.all_takeWhile '\n' hn
    have hb : Unbracketed (cs.takeWhile (· != '\n')) := by
      apply Unbracketed.front (cs.dropWhile (· != '\n'))
      rw [List.takeWhile_append_dropWhile]
      exact unbracketed_of_bracketOpen? ho
    simpa [Lexeme.Spelled, Lexeme.kind?, TokenKind.Spelled] using CommentText.line hline hb

/-- An unquoted argument that something follows has its spelling. -/
theorem argumentText_of_unquotedRun {c : Char} {cs run rest : List Char}
    (he : endsUnquoted c = false) (hq : c ≠ '\x22') (ho : bracketOpen? (c :: cs) = none)
    (h : unquotedRun false (c :: cs) = some (run, rest)) (hr : rest ≠ []) (hne : run ≠ []) :
    ArgumentText .unquoted run ∧ run ≠ ['('] ∧ run ≠ [')'] := by
  have happend := unquotedRun_append h
  obtain ⟨d, r, rfl⟩ := List.exists_cons_of_ne_nil hne
  obtain rfl : d = c := (List.cons.inj happend).1
  have hb : Unbracketed (d :: r) := by
    apply Unbracketed.front rest
    rw [happend]
    exact unbracketed_of_bracketOpen? ho
  refine ⟨.unquoted hne ?_ hb (piecesFrom_of_unquotedRun h hr), ?_, ?_⟩
  · simpa using hq
  · rintro ⟨⟩
    exact absurd he (by decide)
  · rintro ⟨⟩
    exact absurd he (by decide)

theorem argumentLexeme_spelled {c : Char} (he : endsUnquoted c = false) {cs : List Char}
    (hr : (argumentLexeme c cs).1.form = .unquoted → (argumentLexeme c cs).2 ≠ []) :
    (argumentLexeme c cs).1.Spelled := by
  have hne := argumentLexeme_text_ne_nil he cs
  unfold argumentLexeme at hr hne ⊢
  split
  next hq =>
    obtain rfl : c = '\x22' := by simpa using hq
    split
    next run rest hrun =>
      have ht := quotedTail_of_quotedRun hrun
      simpa [Lexeme.Spelled, Lexeme.kind?, TokenKind.Spelled] using ArgumentText.quoted ht
    next => simp [Lexeme.Spelled, Lexeme.kind?]
  next hq =>
    rw [if_neg hq] at hr hne
    split
    next level body ho =>
      apply bracketLexeme_spelled
      intro text ht
      simpa [Lexeme.Spelled, Lexeme.kind?, TokenKind.Spelled] using ArgumentText.bracket ht
    next ho =>
      simp only [ho] at hr hne
      split
      next run rest hrun =>
        simp only [hrun] at hr hne
        have ht := argumentText_of_unquotedRun he (by simpa using hq) ho hrun (hr trivial) hne
        simpa [Lexeme.Spelled, Lexeme.kind?, TokenKind.Spelled, ← String.toList_inj] using ht
      next => simp [Lexeme.Spelled, Lexeme.kind?]

/-- A character that ends no argument starts a name or is a fault, outside parentheses. -/
theorem nextLexeme_top {c : Char} (hc : endsUnquoted c = false) (cs : List Char) :
    nextLexeme 0 c cs =
      if startsName c then
        (⟨.ident, c :: cs.takeWhile continuesName⟩, cs.dropWhile continuesName)
      else (⟨.stray, [c]⟩, cs) := by
  have hn : c ≠ '\n' := by
    rintro rfl
    exact absurd hc (by decide)
  simp only [endsUnquoted, Bool.or_eq_false_iff] at hc
  obtain ⟨⟨⟨hb, hl⟩, hr⟩, hh⟩ := hc
  simp [nextLexeme, hn, hb, hh, hl, hr]

/-- The step: a lexeme has its spelling, unless it is an unquoted argument that ends the script. -/
theorem nextLexeme_spelled {depth : Nat} {c : Char} {cs : List Char}
    (hr : (nextLexeme depth c cs).1.form = .unquoted → (nextLexeme depth c cs).2 ≠ []) :
    (nextLexeme depth c cs).1.Spelled := by
  cases hc : endsUnquoted c with
  | true =>
    unfold nextLexeme
    split
    · split <;> simp [Lexeme.Spelled, Lexeme.kind?, TokenKind.Spelled]
    split
    · simp [Lexeme.Spelled, Lexeme.kind?]
    split
    · exact commentLexeme_spelled cs
    split
    · simp [Lexeme.Spelled, Lexeme.kind?, TokenKind.Spelled]
    split
    · simp [Lexeme.Spelled, Lexeme.kind?, TokenKind.Spelled]
    · simp_all [endsUnquoted]
  | false =>
    cases depth with
    | succ depth =>
      rw [nextLexeme_argument (Nat.succ_pos depth) hc] at hr ⊢
      exact argumentLexeme_spelled hc hr
    | zero =>
      rw [nextLexeme_top hc]
      split
      next hs =>
        have hname : NameText (c :: cs.takeWhile continuesName) :=
          ⟨c, _, rfl, hs, fun d hd => List.all_eq_true.mp List.all_takeWhile d hd⟩
        simpa [Lexeme.Spelled, Lexeme.kind?, TokenKind.Spelled] using hname
      next => simp [Lexeme.Spelled, Lexeme.kind?]

/-- The whole scan: in a text that closes all its parentheses every lexeme has its spelling. -/
theorem lexemesFrom_spelled {depth : Nat} {cs : List Char}
    (h : depthBehind depth (lexemesFrom depth cs) = 0) :
    ∀ l ∈ lexemesFrom depth cs, l.Spelled := by
  fun_induction lexemesFrom depth cs with
  | case1 => simp
  | case2 depth c cs next ih =>
    have hr : next.1.form = .unquoted → next.2 ≠ [] := by
      intro hf hrest
      have hfits : next.1.FitsAt depth := nextLexeme_fitsAt depth c cs
      simp only [Lexeme.FitsAt, hf] at hfits
      simp only [hrest, lexemesFrom, depthBehind_cons, depthBehind_nil, hf, Form.depthAfter] at h
      omega
    intro l hl
    rcases List.mem_cons.mp hl with rfl | hl
    · exact nextLexeme_spelled hr
    · exact ih h l hl

theorem lexemes_spelled {cs : List Char} (h : depthBehind 0 (lexemes cs) = 0) :
    ∀ l ∈ lexemes cs, l.Spelled := by
  rcases lexemes_cases cs with ⟨rest, -, hs⟩ | ⟨-, hs⟩
  · rw [hs] at h ⊢
    intro l hl
    rcases List.mem_cons.mp hl with rfl | hl
    · simp [Lexeme.Spelled, Lexeme.kind?]
    · exact lexemesFrom_spelled h l hl
  · rw [hs] at h ⊢
    exact lexemesFrom_spelled h

/-! What is read closes its parentheses. -/

theorem tokenDepth_append (depth : Nat) (ts us : List Token) :
    tokenDepth depth (ts ++ us) = tokenDepth (tokenDepth depth ts) us := by
  rw [tokenDepth, List.foldl_append]
  rfl

/-- Inside a body the parenthesis that its closer closes is open, and the rest closes it. -/
theorem Enclosed.behind {depth : Nat} {front rest : List Token}
    (h : Enclosed depth (front ++ rest)) :
    ∃ d, Script.tokenDepth (depth + 1) front = d + 1 ∧ Enclosed d rest := by
  induction front generalizing depth with
  | nil => exact ⟨depth, rfl, h⟩
  | cons t ts ih =>
    obtain ⟨-, hle, hr⟩ := enclosed_cons.mp h
    have hclose : t.kind = .rightParen → depth ≠ 0 := by
      rintro hk rfl
      simp [Token.closes, Token.opens, hk] at hle
    show ∃ d, Script.tokenDepth (t.kind.depthAfter (depth + 1)) ts = d + 1 ∧ Enclosed d rest
    rw [(Token.depthAfter_succ hclose).2]
    exact ih hr

/-- A body leaves open the one parenthesis that its closer closes. -/
theorem Enclosed.tokenDepth {depth : Nat} {body : List Token} (h : Enclosed depth body) :
    tokenDepth (depth + 1) body = 1 := by
  rw [← List.append_nil body] at h
  obtain ⟨d, hd, hrest⟩ := h.behind
  rw [hd, enclosed_nil.mp hrest]

theorem Item.tokenDepth (i : Item) : tokenDepth 0 i.tokens = 0 := by
  cases i with
  | lineEnd t hk => simp [tokens, Script.tokenDepth, TokenKind.depthAfter, hk]
  | lineComment t text hk => simp [tokens, Script.tokenDepth, TokenKind.depthAfter, hk]
  | bracketComment t text hk => simp [tokens, Script.tokenDepth, TokenKind.depthAfter, hk]
  | call c =>
    have hb := c.enclosed.tokenDepth
    have hhead : c.head.kind.depthAfter 0 = 0 := by rw [c.head_kind]; rfl
    have hopen : c.opener.kind.depthAfter 0 = 0 + 1 := by rw [c.opener_kind]; rfl
    have hclose : c.closer.kind.depthAfter 1 = 0 := by rw [c.closer_kind]; rfl
    show Script.tokenDepth (c.opener.kind.depthAfter (c.head.kind.depthAfter 0))
      (c.body ++ [c.closer]) = 0
    rw [hhead, hopen, tokenDepth_append, hb]
    exact hclose

theorem tokenDepth_items (items : List Item) : tokenDepth 0 (items.flatMap Item.tokens) = 0 := by
  induction items with
  | nil => rfl
  | cons i items ih => rw [List.flatMap_cons, tokenDepth_append, i.tokenDepth, ih]

theorem Item.ne_endOfFile {i : Item} {t : Token} (h : t ∈ i.tokens) : t.kind ≠ .endOfFile := by
  cases i with
  | lineEnd u hk =>
    obtain rfl := List.mem_singleton.mp h
    simp [hk]
  | lineComment u text hk =>
    obtain rfl := List.mem_singleton.mp h
    simp [hk]
  | bracketComment u text hk =>
    obtain rfl := List.mem_singleton.mp h
    simp [hk]
  | call c =>
    simp only [tokens, List.mem_cons, List.mem_append, List.not_mem_nil, or_false] at h
    rcases h with rfl | rfl | h | rfl
    · simp [c.head_kind]
    · simp [c.opener_kind]
    · exact c.enclosed.unended t h
    · simp [c.closer_kind]

/-- The tokens of a script that is read without a fault are a row of items and the end token. -/
theorem items_of_readScript {source : String} {ns : List Node} (h : readScript source = .ok ns) :
    ∃ items : List Item,
      tokensAt .first (lexemes source.toList) = items.flatMap Item.tokens ∧
      scan source = .ok (items.flatMap Item.tokens ++
        [endToken (Position.first.after source.toList)]) ∧
      ns = nodesBehind [] items := by
  cases hs : scan source with
  | error faults => simp [readScript, hs, Except.bind] at h
  | ok tokens =>
    rw [readScript_of_scan hs, parse_eq_ok] at h
    have hfaults : (readFrom false tokens).faults = [] := by rw [h]
    obtain ⟨items, rest, hrow, hrest⟩ := isRow_of_readFrom hfaults
    have hread := readFrom_items [] items hrest
    rw [Item.lineStarted_nil, ← hrow, h] at hread
    obtain ⟨-, htokens⟩ := scan_eq_ok.mp hs
    -- Items hold no end token, so they reach exactly up to the one that ends the script.
    let inside (t : Token) : Bool := t.kind ≠ .endOfFile
    have hitems : ∀ t ∈ items.flatMap Item.tokens, inside t = true := by
      intro t ht
      obtain ⟨i, -, ht⟩ := List.mem_flatMap.mp ht
      exact decide_eq_true (Item.ne_endOfFile ht)
    have hscanned : ∀ t ∈ tokensAt .first (lexemes source.toList), inside t = true :=
      fun t ht => decide_eq_true (tokensAt_ne_endOfFile ht)
    have hfront : tokens.takeWhile inside = items.flatMap Item.tokens := by
      rw [hrow, List.takeWhile_append_of_pos hitems]
      cases rest with
      | nil => simp
      | cons t rest => simp [inside, hrest t (by simp)]
    have hsame : tokensAt .first (lexemes source.toList) = items.flatMap Item.tokens := by
      rw [← hfront, htokens, List.takeWhile_append_of_pos hscanned]
      simp [inside, endToken]
    exact ⟨items, hsame, by rw [htokens, hsame], congrArg Reading.nodes hread⟩

/-- Every token of a script that is read without a fault has its spelling. -/
theorem spelled_of_items {source : String} {items : List Item}
    (h : tokensAt .first (lexemes source.toList) = items.flatMap Item.tokens) :
    ∀ i ∈ items, ∀ t ∈ i.tokens, t.kind.Spelled := by
  have hdepth : depthBehind 0 (lexemes source.toList) = 0 := by
    rw [← tokenDepth_tokensAt 0 .first, h, tokenDepth_items]
  intro i hi t ht
  have hmem : t ∈ tokensAt .first (lexemes source.toList) := by
    rw [h]
    exact List.mem_flatMap.mpr ⟨i, hi, ht⟩
  obtain ⟨before, l, after, hl, hk, -⟩ := mem_tokensAt hmem
  exact lexemes_spelled hdepth l (by simp [hl]) t.kind hk

/-! What is read is well formed. -/

theorem toNat_of_continuesName {c : Char} (h : continuesName c = true) :
    48 ≤ c.toNat ∧ c.toNat ≤ 122 := by
  have hranges : (c.isAlpha || (decide ('0'.val ≤ c.val) && decide (c.val ≤ '9'.val)) ||
      c == '_') = true := h
  cases hs : startsName c with
  | true =>
    have := toNat_of_startsName hs
    omega
  | false =>
    simp only [startsName, Bool.or_eq_false_iff] at hs
    simp only [hs.1, hs.2, Bool.false_or, Bool.or_false, Bool.and_eq_true, decide_eq_true_eq,
      UInt32.le_iff_toNat_le] at hranges
    exact ⟨hranges.1, Nat.le_trans hranges.2 (by decide)⟩

theorem continuesName_of_startsName {c : Char} (h : startsName c = true) :
    continuesName c = true := by
  simp only [startsName, Bool.or_eq_true] at h
  simp only [continuesName, Char.isAlphanum, Bool.or_eq_true]
  tauto

theorem unquotedPieces_of_continuesName {cs : List Char}
    (h : ∀ c ∈ cs, continuesName c = true) : UnquotedPieces cs := by
  induction cs with
  | nil => exact .nil
  | cons c cs ih =>
    have hc := h c (by simp)
    refine .char ?_ ?_ (endsUnquoted_of_toNat (toNat_of_continuesName hc)) ?_
    · rintro rfl
      exact absurd hc (by decide)
    · rintro rfl
      exact absurd hc (by decide)
    · exact ih fun d hd => h d (by simp [hd])

/-- A name has the spelling of an unquoted argument. -/
theorem NameText.argumentText {cs : List Char} (h : NameText cs) : ArgumentText .unquoted cs := by
  obtain ⟨c, r, rfl, hc, hr⟩ := h
  refine .unquoted (by simp) ?_ ?_ (unquotedPieces_of_continuesName ?_)
  · rw [List.head?_cons]
    rintro ⟨⟩
    exact absurd hc (by decide)
  · rintro level ⟨body, hb⟩
    obtain rfl : '[' = c := (List.cons.inj hb).1
    exact absurd hc (by decide)
  · simpa [continuesName_of_startsName hc] using hr

theorem NameText.ne_paren {name : String} (h : NameText name.toList) : name ≠ "(" ∧ name ≠ ")" := by
  obtain ⟨c, r, hn, hc, -⟩ := h
  constructor
  · rintro rfl
    obtain rfl : '(' = c := (List.cons.inj hn).1
    exact absurd hc (by decide)
  · rintro rfl
    obtain rfl : ')' = c := (List.cons.inj hn).1
    exact absurd hc (by decide)

theorem ArgumentText.ne_paren {kind : ArgumentKind} {text : String}
    (h : ArgumentText kind text.toList) (hk : kind ≠ .unquoted) : text ≠ "(" ∧ text ≠ ")" := by
  constructor
  · rintro rfl
    exact hk (kind_of_paren (c := '(') h (by decide))
  · rintro rfl
    exact hk (kind_of_paren (c := ')') h (by decide))

/-- An argument has its spelling, and it is a parenthesis exactly if its token is one. -/
theorem TokenKind.Spelled.argument {t : Token} (h : t.kind.Spelled) {a : Argument}
    (ha : t.kind.argument? = some a) :
    ArgumentText a.kind a.text.toList ∧ a.opens = t.opens ∧ a.closes = t.closes := by
  have plain (ht : ArgumentText a.kind a.text.toList) (hp : a.text ≠ "(" ∧ a.text ≠ ")")
      (hl : t.kind ≠ .leftParen) (hr : t.kind ≠ .rightParen) :
      ArgumentText a.kind a.text.toList ∧ a.opens = t.opens ∧ a.closes = t.closes := by
    refine ⟨ht, ?_, ?_⟩
    · simp [Argument.opens, Token.opens, hp.1, hl]
    · simp [Argument.closes, Token.closes, hp.2, hr]
  cases hk : t.kind with
  | leftParen =>
    obtain rfl : ⟨.unquoted, "("⟩ = a := by simpa [hk, TokenKind.argument?] using ha
    refine ⟨.leftParen, ?_, ?_⟩
    · simp [Argument.opens, Token.opens, hk]
    · simp [Argument.closes, Token.closes, hk]
  | rightParen =>
    obtain rfl : ⟨.unquoted, ")"⟩ = a := by simpa [hk, TokenKind.argument?] using ha
    refine ⟨.rightParen, ?_, ?_⟩
    · simp [Argument.opens, Token.opens, hk]
    · simp [Argument.closes, Token.closes, hk]
  | ident name =>
    obtain rfl : ⟨.unquoted, name⟩ = a := by simpa [hk, TokenKind.argument?] using ha
    rw [hk] at h
    exact plain (NameText.argumentText h) (NameText.ne_paren h) (by simp [hk]) (by simp [hk])
  | unquoted text =>
    obtain rfl : ⟨.unquoted, text⟩ = a := by simpa [hk, TokenKind.argument?] using ha
    rw [hk] at h
    exact plain h.1 h.2 (by simp [hk]) (by simp [hk])
  | quoted text =>
    obtain rfl : ⟨.quoted, text⟩ = a := by simpa [hk, TokenKind.argument?] using ha
    rw [hk] at h
    exact plain h (ArgumentText.ne_paren h (by simp)) (by simp [hk]) (by simp [hk])
  | bracket text =>
    obtain rfl : ⟨.bracket, text⟩ = a := by simpa [hk, TokenKind.argument?] using ha
    rw [hk] at h
    exact plain h (ArgumentText.ne_paren h (by simp)) (by simp [hk]) (by simp [hk])
  | _ => simp [hk, TokenKind.argument?] at ha

/-- Leaving out what is no parenthesis and renaming the rest keeps the nesting. -/
theorem Nested.filterMap {α β : Type} {opens closes : α → Bool} {opens' closes' : β → Bool}
    {f : α → Option β} {depth : Nat} {xs : List α} (h : Nested opens closes depth xs)
    (hf : ∀ x ∈ xs, (f x).elim false opens' = opens x ∧ (f x).elim false closes' = closes x) :
    Nested opens' closes' depth (xs.filterMap f) := by
  induction xs generalizing depth with
  | nil => exact nested_nil.mpr (nested_nil.mp h)
  | cons x xs ih =>
    obtain ⟨hle, hr⟩ := nested_cons.mp h
    obtain ⟨ho, hc⟩ := hf x (by simp)
    have hrest := ih hr fun y hy => hf y (by simp [hy])
    cases hx : f x with
    | none =>
      simp only [hx, Option.elim_none] at ho hc
      simpa [hx, ← ho, ← hc] using hrest
    | some y =>
      simp only [hx, Option.elim_some] at ho hc
      rw [← ho, ← hc] at hle hrest
      rw [List.filterMap_cons_some hx]
      exact nested_cons.mpr ⟨hle, hrest⟩

/-- A token that is no argument is no parenthesis. -/
theorem Token.not_paren_of_argument? {t : Token} (h : t.kind.argument? = none) :
    t.opens = false ∧ t.closes = false := by
  cases hk : t.kind <;> simp [hk, TokenKind.argument?, Token.opens, Token.closes] at h ⊢

theorem Call.wellFormed (c : Call) (h : ∀ t ∈ (Item.call c).tokens, t.kind.Spelled) :
    c.invocation.WellFormed := by
  have hhead := h c.head (by simp [Item.tokens])
  have hbody : ∀ t ∈ c.body, t.kind.Spelled := fun t ht => h t (by simp [Item.tokens, ht])
  refine ⟨?_, ?_, ?_⟩
  · rw [c.head_kind] at hhead
    exact hhead
  · intro a ha
    obtain ⟨t, ht, hta⟩ := List.mem_filterMap.mp ha
    exact ((hbody t ht).argument hta).1
  · refine c.enclosed.nested.filterMap ?_
    intro t ht
    cases hta : t.kind.argument? with
    | none =>
      obtain ⟨ho, hc⟩ := Token.not_paren_of_argument? hta
      simp [ho, hc]
    | some a => exact ((hbody t ht).argument hta).2

theorem Item.node_wellFormed {i : Item} (h : ∀ t ∈ i.tokens, t.kind.Spelled) {before : List Item}
    {n : Node} (hn : i.node? before = some n) : n.WellFormed := by
  cases i with
  | lineEnd t hk =>
    simp only [node?] at hn
    split at hn
    · simp at hn
    · obtain rfl := Option.some.inj hn
      trivial
  | lineComment t text hk =>
    have ht := h t (by simp [tokens])
    rw [hk] at ht
    obtain rfl := Option.some.inj hn
    exact ht
  | bracketComment t text hk =>
    have ht := h t (by simp [tokens])
    rw [hk] at ht
    obtain rfl := Option.some.inj hn
    exact ht
  | call c =>
    obtain rfl := Option.some.inj hn
    exact c.wellFormed h

theorem mem_nodesBehind {before items : List Item} {n : Node} (h : n ∈ nodesBehind before items) :
    ∃ i ∈ items, ∃ front, i.node? front = some n := by
  induction items generalizing before with
  | nil => simp [nodesBehind] at h
  | cons i items ih =>
    rcases List.mem_append.mp h with h | h
    · exact ⟨i, by simp, before, Option.mem_toList.mp h⟩
    · obtain ⟨j, hj, front, hf⟩ := ih h
      exact ⟨j, by simp [hj], front, hf⟩

/-- Every node of a script is well formed. -/
theorem wellFormed_of_readScript {source : String} {ns : List Node}
    (h : readScript source = .ok ns) : ∀ n ∈ ns, n.WellFormed := by
  obtain ⟨items, htokens, -, rfl⟩ := items_of_readScript h
  intro n hn
  obtain ⟨i, hi, front, hf⟩ := mem_nodesBehind hn
  exact i.node_wellFormed (spelled_of_items htokens i hi) hf

/-! Reading again. -/

/-- The node without its places. -/
def Node.unplaced : Node → Node
  | .invocation c => .invocation { c with span := ⟨0, 0⟩, line := 0 }
  | .comment c => .comment { c with line := 0 }
  | .blankLine _ => .blankLine 0

theorem Node.unplaced_writtenAt (p : Position) (n : Node) :
    (n.writtenAt p).unplaced = n.unplaced := by
  cases n <;> rfl

theorem Node.chars_writtenAt (p : Position) (n : Node) : (n.writtenAt p).chars = n.chars := by
  cases n <;> rfl

theorem writtenFrom_unplaced (p : Position) (ns : List Node) :
    (writtenFrom p ns).map Node.unplaced = ns.map Node.unplaced := by
  induction ns generalizing p with
  | nil => rfl
  | cons n ns ih => simp [writtenFrom, n.unplaced_writtenAt, ih]

theorem canonicalText_writtenFrom (p : Position) (ns : List Node) :
    canonicalText (writtenFrom p ns) = canonicalText ns := by
  have hchars (p : Position) : canonicalChars (writtenFrom p ns) = canonicalChars ns := by
    induction ns generalizing p with
    | nil => rfl
    | cons n ns ih => simp [writtenFrom, n.chars_writtenAt, ih]
  rw [canonicalText, hchars, canonicalText]

/-- A text with the lexemes of well-formed nodes is read as these. -/
theorem readScript_of_lexemes {source : String} {ns : List Node} (h : ∀ n ∈ ns, n.WellFormed)
    (hl : lexemes source.toList = ns.flatMap Node.lineLexemes) :
    readScript source = .ok (writtenFrom .first ns) := by
  have hfaultless : ∀ l ∈ lexemes source.toList, l.cause? = none := by
    rw [hl]
    intro l hl
    obtain ⟨n, -, hl⟩ := List.mem_flatMap.mp hl
    exact n.lineLexemes_faultless l hl
  rw [readScript_of_scan (scan_eq_ok.mpr ⟨hfaultless, rfl⟩), parse_eq_ok, hl]
  exact readFrom_nodes h .first (by simp [EndsScript, endToken])

/-- The canonical text of the nodes is read as the nodes in other places, and these have the same
canonical text. -/
def GivesBack (ns : List Node) : Prop :=
  ∃ ms, readScript (canonicalText ns) = .ok ms ∧ ms.map Node.unplaced = ns.map Node.unplaced ∧
    canonicalText ms = canonicalText ns

theorem givesBack_of_wellFormed {ns : List Node} (h : ∀ n ∈ ns, n.WellFormed) : GivesBack ns :=
  ⟨writtenFrom .first ns, readScript_of_lexemes h (lexemes_canonicalText h),
    writtenFrom_unplaced .first ns, canonicalText_writtenFrom .first ns⟩

/-- Wherever it is put inside parentheses, the text of the argument is one token, and this stands
for the argument. -/
def Argument.StandsAlone (a : Argument) : Prop :=
  ∀ depth rest, 0 < depth → Separated rest → ∃ l kind,
    lexemesFrom depth (a.text.toList ++ rest) = l :: lexemesFrom (l.form.depthAfter depth) rest ∧
      l.kind? = some kind ∧ kind.argument? = some a

theorem Argument.standsAlone {a : Argument} (h : ArgumentText a.kind a.text.toList) :
    a.StandsAlone := by
  intro depth rest hd hr
  exact ⟨a.lexeme, a.tokenKind, lexemesFrom_argument h hd hr, a.lexeme_kind?,
    Argument.tokenKind_argument? h⟩

theorem Invocation.WellFormed.alone {c : Invocation} (h : c.WellFormed) {a : Argument}
    (ha : a ∈ c.arguments) (ho : a.opens = false) (hc : a.closes = false) :
    Invocation.WellFormed { c with arguments := [a] } := by
  refine ⟨h.name, ?_, ?_⟩
  · simpa using h.arguments a ha
  · refine nested_cons.mpr ⟨by simp [hc], nested_nil.mpr ?_⟩
    simp [ho, hc]

/-- What a script was read as can be written in canonical form and read again: all its nodes
together, each node alone, and each argument alone, in its command too unless it is a parenthesis
that stands for itself. -/
theorem readScript_givesBack {source : String} {ns : List Node} (h : readScript source = .ok ns) :
    GivesBack ns ∧ (∀ n ∈ ns, GivesBack [n]) ∧
      ∀ c a, .invocation c ∈ ns → a ∈ c.arguments → a.StandsAlone ∧
        (a.opens = false → a.closes = false →
          GivesBack [.invocation { c with arguments := [a] }]) := by
  have hns := wellFormed_of_readScript h
  refine ⟨givesBack_of_wellFormed hns, ?_, ?_⟩
  · intro n hn
    exact givesBack_of_wellFormed (by simpa using hns n hn)
  · intro c a hc ha
    have hcommand : c.WellFormed := hns _ hc
    refine ⟨Argument.standsAlone (hcommand.arguments a ha), ?_⟩
    intro ho hcl
    apply givesBack_of_wellFormed
    rw [List.forall_mem_singleton]
    exact hcommand.alone ha ho hcl

/-- Arguments without a separator between them, a bracket opener that is none, an escaped line end,
and comments inside, behind and in front of commands. -/
def crowdedScript : String :=
  "f(\x22a\x22\x22b\x22[[x]]y\x22 z\x22#[[c]]\n([=))#d\n\n#[[e]]g(\\\n)"

def crowdedNodes : List Node :=
  [.invocation ⟨"f", [⟨.quoted, "\x22a\x22"⟩, ⟨.quoted, "\x22b\x22"⟩, ⟨.bracket, "[[x]]"⟩,
      ⟨.unquoted, "y\x22 z\x22"⟩, ⟨.unquoted, "("⟩, ⟨.unquoted, "[="⟩, ⟨.unquoted, ")"⟩],
      ⟨0, 30⟩, 1⟩,
    .comment ⟨.line, "#d", 2⟩, .blankLine 3, .comment ⟨.bracket, "#[[e]]", 4⟩,
    .invocation ⟨"g", [⟨.unquoted, "\\\n"⟩], ⟨40, 45⟩, 4⟩]

theorem readScript_givesBack_crowded :
    readScript crowdedScript = .ok crowdedNodes ∧ GivesBack crowdedNodes ∧
      GivesBack [.comment ⟨.line, "#d", 2⟩] ∧
      Argument.StandsAlone ⟨.unquoted, "\\\n"⟩ ∧
      GivesBack [.invocation ⟨"g", [⟨.unquoted, "\\\n"⟩], ⟨40, 45⟩, 4⟩] := by
  have h : readScript crowdedScript = .ok crowdedNodes := by decide +kernel
  obtain ⟨hall, hnodes, harguments⟩ := readScript_givesBack h
  obtain ⟨halone, hcommand⟩ := harguments ⟨"g", [⟨.unquoted, "\\\n"⟩], ⟨40, 45⟩, 4⟩
    ⟨.unquoted, "\\\n"⟩ (by decide) (by decide)
  exact ⟨h, hall, hnodes _ (by decide), halone, hcommand (by decide) (by decide)⟩

end CMakeManual.Script
