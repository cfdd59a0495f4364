import CMakeManual.Proofs.Script.Location
import CMakeManual.Proofs.Script.Nesting

/-! Blank lines. The reader takes a line end for a blank line if no item stands between it and the
line end before. In the source these are the lines without a character that is not blank whose line
end stands neither between parentheses nor in a bracket comment. -/
namespace CMakeManual.Script
open Text
open scoped List

/-- Line `number` of the source is `text`. It stands behind `before`, and a line end behind it. -/
structure EndedLine (source : String) (number : Nat) (before text : List Char) : Prop where
  inside : ∃ after, source.toList = before ++ text ++ '\n' :: after
  starts : before = [] ∨ before.getLast? = some '\n'
  whole : '\n' ∉ text
  number : number = 1 + before.count '\n'

/-- Nothing but blanks, and perhaps a byte order mark at the start of the script. -/
def IsBlankText (before text : List Char) : Prop :=
  ∀ u c v, text = u ++ c :: v → isBlank c = true ∨ before ++ u = [] ∧ c = byteOrderMark

/-- The byte at `offset` stands behind the opening parenthesis of a command and not behind its
closing one. -/
def InsideParentheses (tokens : List Token) (nodes : List Node) (offset : Nat) : Prop :=
  ∃ c, .invocation c ∈ nodes ∧ ∃ t ∈ tokens, t.kind = .leftParen ∧
    c.span.start ≤ t.span.start ∧ t.span.stop ≤ offset ∧ offset < c.span.stop

def InsideBracketComment (tokens : List Token) (offset : Nat) : Prop :=
  ∃ t ∈ tokens, ∃ text, t.kind = .bracketComment text ∧
    t.span.start ≤ offset ∧ offset < t.span.stop

/-- A blank line of a source that was scanned and read. -/
def IsBlankLine (source : String) (tokens : List Token) (nodes : List Node) (number : Nat) : Prop :=
  ∃ before text, EndedLine source number before text ∧ IsBlankText before text ∧
    ¬ InsideParentheses tokens nodes (byteLength (before ++ text)) ∧
    ¬ InsideBracketComment tokens (byteLength (before ++ text))

theorem mem_nodesBehind_iff {before items : List Item} {n : Node} :
    n ∈ nodesBehind before items ↔
      ∃ front i back, items = front ++ i :: back ∧ i.node? (before ++ front) = some n := by
  induction items generalizing before with
  | nil => simp [nodesBehind]
  | cons i items ih =>
    rw [nodesBehind, List.mem_append, Option.mem_toList, ih]
    constructor
    · rintro (h | ⟨front, j, back, rfl, h⟩)
      · exact ⟨[], i, items, rfl, by simpa using h⟩
      · exact ⟨i :: front, j, back, rfl, by simpa using h⟩
    · rintro ⟨front, j, back, hs, h⟩
      cases front with
      | nil =>
        obtain ⟨rfl, rfl⟩ := List.cons.inj hs
        exact .inl (by simpa using h)
      | cons k front =>
        obtain ⟨rfl, rfl⟩ := List.cons.inj hs
        exact .inr ⟨front, j, back, rfl, by simpa using h⟩

/-- A blank line is a line end with no comment or command on its line. -/
theorem blankLine_mem_iff {items : List Item} {number : Nat} :
    .blankLine number ∈ nodesBehind [] items ↔
      ∃ front t hk back, items = front ++ .lineEnd t hk :: back ∧
        Item.lineStarted front = false ∧ t.line = number := by
  rw [mem_nodesBehind_iff]
  constructor
  · rintro ⟨front, i, back, rfl, h⟩
    cases i with
    | lineEnd t hk =>
      refine ⟨front, t, hk, back, rfl, ?_⟩
      simpa [Item.node?] using h
    | lineComment t text hk => simp [Item.node?] at h
    | bracketComment t text hk => simp [Item.node?] at h
    | call c => simp [Item.node?] at h
  · rintro ⟨front, t, hk, back, rfl, hs, rfl⟩
    exact ⟨front, .lineEnd t hk, back, rfl, by simp [Item.node?, hs]⟩

theorem invocation_mem_iff {items : List Item} {command : Invocation} :
    .invocation command ∈ nodesBehind [] items ↔ ∃ c, .call c ∈ items ∧ c.invocation = command := by
  rw [mem_nodesBehind_iff]
  constructor
  · rintro ⟨front, i, back, rfl, h⟩
    cases i with
    | lineEnd t hk => simp [Item.node?] at h
    | lineComment t text hk => simp [Item.node?] at h
    | bracketComment t text hk => simp [Item.node?] at h
    | call c => exact ⟨c, by simp, by simpa [Item.node?] using h⟩
  · rintro ⟨c, hc, rfl⟩
    obtain ⟨front, back, rfl⟩ := List.append_of_mem hc
    exact ⟨front, .call c, back, rfl, rfl⟩

/-! Places among the tokens of items. -/

/-- Where a command is cut: behind its name, or between its parentheses. -/
def Call.IsCut (c : Call) (ts us : List Token) : Prop :=
  c.closer ∈ us ∧
    (us.head? = some c.opener ∧ tokenDepth 0 ts = 0 ∨ c.opener ∈ ts ∧ 0 < tokenDepth 0 ts)

theorem Call.isCut_of_tokens {c : Call} {ts us : List Token}
    (h : (Item.call c).tokens = ts ++ us) (ht : ts ≠ []) (hu : us ≠ []) : c.IsCut ts us := by
  have hhead : c.head.kind.depthAfter 0 = 0 := by rw [c.head_kind]; rfl
  have hopen : c.opener.kind.depthAfter 0 = 1 := by rw [c.opener_kind]; rfl
  obtain ⟨t, ts, rfl⟩ := List.exists_cons_of_ne_nil ht
  have hcons : c.head :: c.opener :: (c.body ++ [c.closer]) = t :: (ts ++ us) := h
  obtain ⟨rfl, hrest⟩ := List.cons.inj hcons
  cases ts with
  | nil =>
    obtain rfl : c.opener :: (c.body ++ [c.closer]) = us := hrest
    exact ⟨by simp, .inl ⟨rfl, hhead⟩⟩
  | cons u ts =>
    obtain ⟨us, last, rfl⟩ : ∃ front last, us = front ++ [last] :=
      ⟨_, _, (List.dropLast_append_getLast hu).symm⟩
    have hbodies : c.opener :: (c.body ++ [c.closer]) = u :: (ts ++ us ++ [last]) := by
      rw [hrest, List.cons_append, List.append_assoc]
    obtain ⟨rfl, htail⟩ := List.cons.inj hbodies
    obtain ⟨hbody, hlast⟩ := List.append_inj' htail rfl
    obtain rfl := (List.cons.inj hlast).1
    have henclosed := c.enclosed
    rw [hbody] at henclosed
    refine ⟨by simp, .inr ⟨by simp, ?_⟩⟩
    show 0 < tokenDepth (c.opener.kind.depthAfter (c.head.kind.depthAfter 0)) ts
    obtain ⟨d, hd, -⟩ := henclosed.behind
    rw [hhead, hopen, hd]
    exact Nat.succ_pos d

/-- Only a command has more than one token. -/
theorem Item.call_of_tokens {i : Item} {ts us : List Token} (h : i.tokens = ts ++ us)
    (ht : ts ≠ []) (hu : us ≠ []) : ∃ c, i = .call c := by
  have hlength := congrArg List.length h
  have ht := List.length_pos_iff.mpr ht
  have hu := List.length_pos_iff.mpr hu
  rw [List.length_append] at hlength
  cases i with
  | call c => exact ⟨c, rfl⟩
  | lineEnd t hk => simp [tokens] at hlength; omega
  | lineComment t text hk => simp [tokens] at hlength; omega
  | bracketComment t text hk => simp [tokens] at hlength; omega

/-- The tokens of items are cut between two items or in a command. -/
theorem items_cut {items : List Item} {ts us : List Token}
    (h : items.flatMap Item.tokens = ts ++ us) :
    (∃ front back, items = front ++ back ∧ ts = front.flatMap Item.tokens ∧
      us = back.flatMap Item.tokens) ∨
    ∃ c, .call c ∈ items ∧ c.IsCut ts us := by
  induction items generalizing ts with
  | nil =>
    obtain ⟨rfl, rfl⟩ := List.append_eq_nil_iff.mp h.symm
    exact .inl ⟨[], [], rfl, rfl, rfl⟩
  | cons i items ih =>
    rw [List.flatMap_cons] at h
    rcases List.append_eq_append_iff.mp h with ⟨later, rfl, hlater⟩ | ⟨rest, hi, rfl⟩
    · rcases ih hlater with ⟨front, back, rfl, rfl, rfl⟩ | ⟨c, hc, hcloser, hcut⟩
      · exact .inl ⟨i :: front, back, rfl, rfl, rfl⟩
      · refine .inr ⟨c, by simp [hc], hcloser, ?_⟩
        rw [tokenDepth_append, i.tokenDepth]
        exact hcut.imp id (And.imp_left (List.mem_append_right _))
    · by_cases ht : ts = []
      · subst ht
        exact .inl ⟨[], i :: items, rfl, rfl, by rw [List.flatMap_cons, hi]; rfl⟩
      by_cases hrest : rest = []
      · subst hrest
        exact .inl ⟨[i], items, rfl, by simp [hi], rfl⟩
      · obtain ⟨c, rfl⟩ := Item.call_of_tokens hi ht hrest
        obtain ⟨hcloser, hcut⟩ := c.isCut_of_tokens hi ht hrest
        refine .inr ⟨c, by simp, by simp [hcloser], hcut.imp (And.imp_left fun hhead => ?_) id⟩
        rw [List.head?_append_of_ne_nil _ hrest, hhead]

/-- A line end outside parentheses is an item of its own. -/
theorem lineEnd_of_cut {items : List Item} {ts us : List Token} {t : Token}
    (h : items.flatMap Item.tokens = ts ++ t :: us) (hk : t.kind = .newline)
    (hd : tokenDepth 0 ts = 0) :
    ∃ front back, items = front ++ .lineEnd t hk :: back ∧ ts = front.flatMap Item.tokens := by
  rcases items_cut h with ⟨front, back, rfl, rfl, hback⟩ | ⟨c, -, -, ⟨hhead, -⟩ | ⟨-, hpos⟩⟩
  · cases back with
    | nil => simp at hback
    | cons i back =>
      have hfirst : t = i.first := by
        cases i <;> exact (List.cons.inj hback).1
      rw [hfirst] at hk
      cases i with
      | lineEnd u hu =>
        obtain rfl : t = u := hfirst
        exact ⟨front, back, rfl, rfl⟩
      | lineComment u text hu => simp [Item.first, hu] at hk
      | bracketComment u text hu => simp [Item.first, hu] at hk
      | call c => simp [Item.first, c.head_kind] at hk
  · obtain rfl : t = c.opener := by simpa using hhead
    simp [c.opener_kind] at hk
  · omega

section Scanned
variable {source : String} {tokens : List Token} (h : scan source = .ok tokens)
include h

theorem token_start_le_stop {t : Token} (ht : t ∈ tokens) : t.span.start ≤ t.span.stop :=
  (token_textAt h t ht).start_le_stop

/-- A token with the text in front of it. -/
theorem token_bytes {t : Token} (ht : t ∈ tokens) :
    ∃ before after, source.toList = before ++ t.kind.spelling.toList ++ after ∧
      t.span = ⟨byteLength before, byteLength (before ++ t.kind.spelling.toList)⟩ ∧
      t.line = 1 + before.count '\n' := by
  obtain ⟨before, after, hsource, hspan, hline⟩ := token_textAt h t ht
  refine ⟨before, after, hsource, ?_, hline⟩
  rw [hspan, Position.span, offset_first_after, ← Position.after_append, offset_first_after]

/-- A line end is one byte long. -/
theorem newline_bytes {t : Token} (ht : t ∈ tokens) (hk : t.kind = .newline) :
    ∃ before after, source.toList = before ++ '\n' :: after ∧
      t.span = ⟨byteLength before, byteLength before + 1⟩ ∧ t.line = 1 + before.count '\n' := by
  obtain ⟨before, after, hsource, hspan, hline⟩ := token_bytes h ht
  rw [hk, byteLength_append] at hspan
  refine ⟨before, after, ?_, hspan, hline⟩
  simpa [hk, TokenKind.spelling] using hsource

/-- Tokens do not overlap. -/
theorem tokens_around {front back : List Token} {t : Token} (ht : tokens = front ++ t :: back) :
    (∀ u ∈ front, u.span.stop ≤ t.span.start) ∧ ∀ u ∈ back, t.span.stop ≤ u.span.start := by
  have horder := scan_ordered h
  rw [ht, List.pairwise_append] at horder
  exact ⟨fun u hu => horder.2.2 u hu t (by simp),
    fun u hu => List.rel_of_pairwise_cons horder.2.1 hu⟩

/-- The text in front of a token is that in front of the token before, this token and a gap. -/
theorem gap_before {front back : List Token} {w t : Token}
    (ht : tokens = front ++ w :: t :: back) {before after : List Char}
    (hs : source.toList = before ++ after) (hstart : t.span.start = byteLength before) :
    ∃ chars gap, before = chars ++ w.kind.spelling.toList ++ gap ∧
      ∀ u ∈ front ++ [w], u.span.stop ≤ byteLength (chars ++ w.kind.spelling.toList) := by
  have hw : w ∈ tokens := by simp [ht]
  obtain ⟨chars, rest, hchars, hspan, -⟩ := token_bytes h hw
  obtain ⟨hearlier, hlater⟩ := tokens_around h ht
  have hstop : w.span.stop = byteLength (chars ++ w.kind.spelling.toList) := by rw [hspan]
  have hle : w.span.stop ≤ t.span.start := hlater t (by simp)
  have hown : chars ++ w.kind.spelling.toList <+: source.toList := ⟨rest, hchars.symm⟩
  have hbefore : before <+: source.toList := ⟨after, hs.symm⟩
  obtain ⟨gap, hgap⟩ := prefix_of_byteLength_le hown hbefore (by omega)
  refine ⟨chars, gap, hgap.symm, ?_⟩
  intro u hu
  rw [← hstop]
  rcases List.mem_append.mp hu with hu | hu
  · exact Nat.le_trans (hearlier u hu) (token_start_le_stop h hw)
  · obtain rfl := List.mem_singleton.mp hu
    exact Nat.le_refl _

/-- The tokens that end at or before a place stand in front of the others. -/
theorem tokens_cut (offset : Nat) :
    ∃ ts us, tokens = ts ++ us ∧ (∀ t ∈ ts, t.span.stop ≤ offset) ∧
      ∀ u ∈ us, offset < u.span.stop := by
  let ends (t : Token) : Bool := t.span.stop ≤ offset
  refine ⟨tokens.takeWhile ends, tokens.dropWhile ends,
    List.takeWhile_append_dropWhile.symm, ?_, ?_⟩
  · intro t ht
    simpa [ends] using List.all_eq_true.mp List.all_takeWhile t ht
  · cases hrest : tokens.dropWhile ends with
    | nil => simp
    | cons v rest =>
      have hsuffix : v :: rest <:+ tokens := hrest ▸ List.dropWhile_suffix ends
      have hv : offset < v.span.stop := by
        have hfirst := List.head_dropWhile_not ends (l := tokens) (by simp [hrest])
        simpa [hrest, ends] using hfirst
      intro u hu
      rcases List.mem_cons.mp hu with rfl | hu
      · exact hv
      · have horder := List.rel_of_pairwise_cons ((scan_ordered h).sublist hsuffix.sublist) hu
        have := token_start_le_stop h (hsuffix.subset (List.mem_cons_of_mem v hu))
        omega

omit h in
/-- Only the tokens in front of a place end at or before it. -/
theorem filter_cut {ts us : List Token} {offset : Nat} (hts : ∀ t ∈ ts, t.span.stop ≤ offset)
    (hus : ∀ u ∈ us, offset < u.span.stop) :
    (ts ++ us).filter (fun t => t.span.stop ≤ offset) = ts := by
  have hstay : ts.filter (fun t => t.span.stop ≤ offset) = ts := by
    rw [List.filter_eq_self]
    intro t ht
    exact decide_eq_true (hts t ht)
  rw [List.filter_append, hstay, filter_behind hus, List.append_nil]

/-- Text between tokens outside parentheses is blank and on one line. -/
theorem blank_before {front back : List Token} {t : Token} (ht : tokens = front ++ t :: back)
    (hd : tokenDepth 0 front = 0) {before gap after : List Char}
    (hs : source.toList = before ++ gap ++ after)
    (hfront : ∀ u ∈ front, u.span.stop ≤ byteLength before)
    (hstart : t.span.start = byteLength (before ++ gap)) :
    '\n' ∉ gap ∧ IsBlankText before gap := by
  have hback : ∀ u ∈ t :: back, byteLength (before ++ gap) ≤ u.span.start := by
    intro u hu
    rcases List.mem_cons.mp hu with rfl | hu
    · omega
    · have := token_start_le_stop h (t := t) (by simp [ht])
      have := (tokens_around h ht).2 u hu
      omega
  have hplace (u v : List Char) (c : Char) (hgap : gap = u ++ c :: v) :
      source = String.ofList (before ++ u) ++ String.singleton c ++ String.ofList (v ++ after) ∧
      (∀ w ∈ front, w.span.stop ≤ (String.ofList (before ++ u)).utf8ByteSize) ∧
      ∀ w ∈ t :: back, (String.ofList (before ++ u)).utf8ByteSize < w.span.start := by
    rw [byteLength_ofList, byteLength_append, ← String.toList_inj]
    refine ⟨by simp [hs, hgap], fun w hw => ?_, fun w hw => ?_⟩
    · have := hfront w hw
      omega
    · have := hback w hw
      have := c.utf8Size_pos
      rw [hgap, byteLength_append, byteLength_append, byteLength_cons] at *
      omega
  have hfree (u v : List Char) (c : Char) (hgap : gap = u ++ c :: v) :
      ¬ Covered tokens (String.ofList (before ++ u)).utf8ByteSize := by
    obtain ⟨-, hbefore, hbehind⟩ := hplace u v c hgap
    rintro ⟨w, hw, hle, hlt⟩
    rw [ht] at hw
    rcases List.mem_append.mp hw with hw | hw
    · have := hbefore w hw
      omega
    · have := hbehind w hw
      omega
  constructor
  · intro hn
    obtain ⟨u, v, hgap⟩ := List.append_of_mem hn
    obtain ⟨hsource, hbefore, hbehind⟩ := hplace u v '\n' hgap
    have hpos := depth_pos_of_newline h hsource (hfree u v '\n' hgap)
    have hstops : ∀ w ∈ t :: back, (String.ofList (before ++ u)).utf8ByteSize < w.span.stop := by
      intro w hw
      have hw' := token_start_le_stop h (ht ▸ List.mem_append_right front hw)
      exact Nat.lt_of_lt_of_le (hbehind w hw) hw'
    rw [ht, filter_cut hbefore hstops] at hpos
    omega
  · intro u c v hgap
    have hblank := blank_of_not_covered h (hplace u v c hgap).1 (hfree u v c hgap)
    refine hblank.imp id (And.imp_left fun he => ?_)
    simpa using he

end Scanned

/-! Items in their places. -/

/-- The items that a source was scanned and read as. -/
structure ReadAs (source : String) (tokens : List Token) (nodes : List Node)
    (items : List Item) : Prop where
  scanned : scan source = .ok tokens
  tokens_eq : tokens = items.flatMap Item.tokens ++ [endToken (Position.first.after source.toList)]
  nodes_eq : nodes = nodesBehind [] items
  spelled : ∀ t ∈ tokens, t.kind.Spelled

theorem readAs_items {source : String} {tokens : List Token} {nodes : List Node}
    (hs : scan source = .ok tokens) (hp : parse tokens = .ok nodes) :
    ∃ items, ReadAs source tokens nodes items := by
  rw [← readScript_of_scan hs] at hp
  obtain ⟨items, hitems, hscan, hnodes⟩ := items_of_readScript hp
  obtain rfl := Except.ok.inj (hs.symm.trans hscan)
  refine ⟨items, hs, rfl, hnodes, ?_⟩
  intro t ht
  rcases List.mem_append.mp ht with ht | ht
  · obtain ⟨i, hi, ht⟩ := List.mem_flatMap.mp ht
    exact spelled_of_items hitems i hi t ht
  · obtain rfl := List.mem_singleton.mp ht
    trivial

namespace ReadAs
variable {source : String} {tokens : List Token} {nodes : List Node} {items : List Item}
  (h : ReadAs source tokens nodes items)
include h

/-- A command reaches from its name to its closing parenthesis. -/
theorem call_span {c : Call} (hc : .call c ∈ items) :
    c.invocation.span = ⟨c.head.span.start, c.closer.span.stop⟩ ∧
      c.head.span.start ≤ c.opener.span.start := by
  have hsub : (Item.call c).tokens <+ tokens := by
    rw [h.tokens_eq]
    exact (List.sublist_flatten_of_mem (List.mem_map_of_mem hc)).trans
      (List.sublist_append_left _ _)
  have hhead := token_start_le_stop h.scanned (hsub.subset (List.mem_cons_self : c.head ∈ _))
  have hcloser := token_start_le_stop h.scanned (t := c.closer)
    (hsub.subset (by simp [Item.tokens]))
  have hpairs := (scan_ordered h.scanned).sublist hsub
  have hclose : c.head.span.stop ≤ c.closer.span.start :=
    List.rel_of_pairwise_cons hpairs (by simp)
  have hopen : c.head.span.stop ≤ c.opener.span.start :=
    List.rel_of_pairwise_cons hpairs (by simp)
  refine ⟨?_, by omega⟩
  rw [Call.invocation, Span.join, Span.mk.injEq]
  omega

/-- Where a parenthesis is open, it is the parenthesis of a command. -/
theorem insideParentheses {ts us : List Token} {offset : Nat}
    (hcut : items.flatMap Item.tokens = ts ++ us) (hts : ∀ t ∈ ts, t.span.stop ≤ offset)
    (hus : ∀ u ∈ us, offset < u.span.stop) (hd : 0 < tokenDepth 0 ts) :
    InsideParentheses tokens nodes offset := by
  rcases items_cut hcut with ⟨front, back, -, rfl, -⟩ | ⟨c, hc, hcloser, ⟨-, hzero⟩ | ⟨hopener, -⟩⟩
  · rw [tokenDepth_items] at hd
    omega
  · omega
  · obtain ⟨hspan, hopen⟩ := h.call_span hc
    have hmem : c.opener ∈ tokens := by simp [h.tokens_eq, hcut, hopener]
    have hnode : .invocation c.invocation ∈ nodes := by
      rw [h.nodes_eq]
      exact invocation_mem_iff.mpr ⟨c, hc, rfl⟩
    refine ⟨c.invocation, hnode, c.opener, hmem, c.opener_kind, ?_, hts _ hopener, ?_⟩
    · rw [hspan]
      exact hopen
    · rw [hspan]
      exact hus _ hcloser

theorem tokens_split {front back : List Item} {t : Token} {hk : t.kind = .newline}
    (hitems : items = front ++ .lineEnd t hk :: back) :
    tokens = front.flatMap Item.tokens ++ t :: (back.flatMap Item.tokens ++
      [endToken (Position.first.after source.toList)]) := by
  rw [h.tokens_eq, hitems]
  simp [Item.tokens]

/-- A line end that is an item of its own stands in no command. -/
theorem not_insideParentheses {front back : List Item} {t : Token} {hk : t.kind = .newline}
    (hitems : items = front ++ .lineEnd t hk :: back) :
    ¬ InsideParentheses tokens nodes t.span.start := by
  rintro ⟨command, hcommand, u, hu, -, hstart, hstop, hinside⟩
  rw [h.nodes_eq] at hcommand
  obtain ⟨c, hc, rfl⟩ := invocation_mem_iff.mp hcommand
  rw [(h.call_span hc).1] at hstart hinside
  have htokens := h.tokens_split hitems
  obtain ⟨hbefore, hbehind⟩ := tokens_around h.scanned htokens
  rw [hitems] at hc
  rcases List.mem_append.mp hc with hc | hc
  · have := hbefore c.closer (List.mem_flatMap.mpr ⟨_, hc, by simp [Item.tokens]⟩)
    simp only at hinside
    omega
  · have hc : .call c ∈ back := by simpa using hc
    have hhead : c.head ∈ back.flatMap Item.tokens :=
      List.mem_flatMap.mpr ⟨_, hc, by simp [Item.tokens]⟩
    have hafter := hbehind c.head (by simp [hhead])
    have hu := token_start_le_stop h.scanned hu
    obtain ⟨_, _, -, hspan, -⟩ := newline_bytes h.scanned (t := t) (by simp [htokens]) hk
    simp only [hspan] at hafter hstart hstop
    omega

end ReadAs

/-- Nor does it stand in a comment. -/
theorem not_insideBracketComment {source : String} {tokens : List Token}
    (hs : scan source = .ok tokens) {front back : List Token} {t : Token}
    (htokens : tokens = front ++ t :: back) (hk : t.kind = .newline) :
    ¬ InsideBracketComment tokens t.span.start := by
  rintro ⟨u, hu, text, huk, hstart, hstop⟩
  obtain ⟨_, _, -, hspan, -⟩ := newline_bytes hs (t := t) (by simp [htokens]) hk
  obtain ⟨hbefore, hbehind⟩ := tokens_around hs htokens
  rw [htokens, List.mem_append, List.mem_cons] at hu
  rcases hu with hu | rfl | hu
  · have := hbefore u hu
    omega
  · simp [hk] at huk
  · have := hbehind u hu
    simp only [hspan] at this hstart
    omega

/-- Behind items that leave no line started a line starts: they end with a line end, if there are
any. -/
theorem lineStart_of_not_started {source : String} {tokens : List Token}
    (hs : scan source = .ok tokens) {front : List Item} {back : List Token} {t : Token}
    (htokens : tokens = front.flatMap Item.tokens ++ t :: back)
    (hstarted : Item.lineStarted front = false) {before after : List Char}
    (hsource : source.toList = before ++ after) (ht : t.span.start = byteLength before) :
    ∃ line text, before = line ++ text ∧ (line = [] ∨ line.getLast? = some '\n') ∧
      ∀ u ∈ front.flatMap Item.tokens, u.span.stop ≤ byteLength line := by
  rcases List.eq_nil_or_concat front with rfl | ⟨others, i, rfl⟩
  · exact ⟨[], before, rfl, .inl rfl, by simp⟩
  · rw [List.concat_eq_append, Item.lineStarted_append] at hstarted
    cases i with
    | lineComment => simp [Item.endsLine] at hstarted
    | bracketComment => simp [Item.endsLine] at hstarted
    | call => simp [Item.endsLine] at hstarted
    | lineEnd u hk =>
      have hfront : (others.concat (.lineEnd u hk)).flatMap Item.tokens =
          others.flatMap Item.tokens ++ [u] := by
        simp [Item.tokens]
      rw [hfront, List.append_assoc] at htokens
      obtain ⟨chars, text, rfl, hstops⟩ := gap_before hs htokens hsource ht
      refine ⟨chars ++ u.kind.spelling.toList, text, rfl, .inr ?_, ?_⟩
      · simp [hk, TokenKind.spelling]
      · rw [hfront]
        exact hstops

/-- A line end that gives a blank line ends one. -/
theorem ReadAs.isBlankLine {source : String} {tokens : List Token} {nodes : List Node}
    {items : List Item} (h : ReadAs source tokens nodes items) {number : Nat}
    (hmem : .blankLine number ∈ nodes) : IsBlankLine source tokens nodes number := by
  rw [h.nodes_eq] at hmem
  obtain ⟨front, t, hk, back, hitems, hstarted, rfl⟩ := blankLine_mem_iff.mp hmem
  have htokens := h.tokens_split hitems
  obtain ⟨chars, after, hsource, hspan, hline⟩ :=
    newline_bytes h.scanned (t := t) (by simp [htokens]) hk
  obtain ⟨before, text, rfl, hstarts, hfront⟩ :=
    lineStart_of_not_started h.scanned htokens hstarted hsource (by rw [hspan])
  obtain ⟨hwhole, hblank⟩ :=
    blank_before h.scanned htokens (tokenDepth_items front) hsource hfront (by rw [hspan])
  have hparentheses := h.not_insideParentheses hitems
  have hcomment := not_insideBracketComment h.scanned htokens hk
  rw [hspan] at hparentheses hcomment
  refine ⟨before, text, ⟨⟨after, hsource⟩, hstarts, hwhole, ?_⟩, hblank, hparentheses, hcomment⟩
  rw [hline, List.count_append, List.count_eq_zero.mpr hwhole]
  rfl

/-! From the source to the items. -/

/-- A token is spelled with the characters that it covers. -/
theorem mem_spelling {source : String} {tokens : List Token} (hs : scan source = .ok tokens)
    {t : Token} (ht : t ∈ tokens) {before after : List Char} {c : Char}
    (hsource : source.toList = before ++ c :: after) (hstart : t.span.start ≤ byteLength before)
    (hstop : byteLength before < t.span.stop) : c ∈ t.kind.spelling.toList := by
  obtain ⟨front, back, htext, hspan, -⟩ := token_bytes hs ht
  simp only [hspan, byteLength_append] at hstart hstop
  have hfront : front <+: source.toList := ⟨_, by rw [htext, List.append_assoc]⟩
  have hbefore : before <+: source.toList := ⟨_, hsource.symm⟩
  obtain ⟨u, rfl⟩ := prefix_of_byteLength_le hfront hbefore hstart
  rw [htext, List.append_assoc, List.append_assoc, List.append_cancel_left_eq] at hsource
  rw [byteLength_append] at hstop
  rcases List.append_eq_append_iff.mp hsource with ⟨v, rfl, -⟩ | ⟨v, hspelling, hv⟩
  · rw [byteLength_append] at hstop
    omega
  · cases v with
    | nil =>
      rw [hspelling, List.append_nil] at hstop
      omega
    | cons d v =>
      obtain ⟨rfl, -⟩ := List.cons.inj hv
      simp [hspelling]

theorem NameText.not_mem {cs : List Char} (h : NameText cs) {d : Char}
    (hd : continuesName d = false) : d ∉ cs := by
  obtain ⟨c, r, rfl, hc, hr⟩ := h
  intro hmem
  rcases List.mem_cons.mp hmem with rfl | hmem
  · simp [continuesName_of_startsName hc] at hd
  · simp [hr d hmem] at hd

theorem CommentText.of_line {cs : List Char} (h : CommentText .line cs) :
    ∃ r, cs = '#' :: r ∧ '\n' ∉ r := by
  cases h with
  | @line r hr _ => exact ⟨r, rfl, hr⟩

/-- Outside parentheses only a line end and a bracket comment hold a line end. -/
theorem TokenKind.newline_or_comment {kind : TokenKind} (hspelled : kind.Spelled)
    (hfits : kind.FitsAt 0) (hn : '\n' ∈ kind.spelling.toList) :
    kind = .newline ∨ ∃ text, kind = .bracketComment text := by
  cases kind with
  | newline => exact .inl rfl
  | bracketComment text => exact .inr ⟨text, rfl⟩
  | ident name =>
    have hname : NameText name.toList := hspelled
    exact absurd hn (hname.not_mem (by decide))
  | lineComment text =>
    obtain ⟨r, hr, hline⟩ := CommentText.of_line hspelled
    have hmem : '\n' ∈ text.toList := hn
    exact absurd hmem (by simp [hr, hline])
  | leftParen => simp [spelling] at hn
  | rightParen => simp [spelling] at hn
  | endOfFile => simp [spelling] at hn
  | unquoted text => exact absurd hfits (Nat.lt_irrefl 0)
  | quoted text => exact absurd hfits (Nat.lt_irrefl 0)
  | bracket text => exact absurd hfits (Nat.lt_irrefl 0)

/-- The text holds a character that is not blank on its last line. -/
def MarksLine (text : List Char) : Prop :=
  ∃ x d y, text = x ++ d :: y ∧ isBlank d = false ∧ d ≠ byteOrderMark ∧ '\n' ∉ y

/-- A comment or a command marks the line on which it ends. -/
theorem Item.marksLine {i : Item} (h : ∀ t ∈ i.tokens, t.kind.Spelled)
    (he : i.endsLine = false) :
    ∃ front t, i.tokens = front ++ [t] ∧ MarksLine t.kind.spelling.toList := by
  cases i with
  | lineEnd t hk => simp [endsLine] at he
  | lineComment t text hk =>
    refine ⟨[], t, rfl, ?_⟩
    have hspelled := h t (by simp [tokens])
    rw [hk] at hspelled ⊢
    obtain ⟨r, hr, hline⟩ := CommentText.of_line hspelled
    exact ⟨[], '#', r, hr, by decide, by decide, hline⟩
  | bracketComment t text hk =>
    refine ⟨[], t, rfl, ?_⟩
    have hspelled := h t (by simp [tokens])
    rw [hk] at hspelled ⊢
    have hcomment : CommentText .bracket text.toList := hspelled
    show MarksLine text.toList
    generalize text.toList = cs at hcomment
    cases hcomment with
    | bracket hb =>
      obtain ⟨level, body, rfl, -⟩ := hb
      refine ⟨'#' :: (bracketOpener level ++ (body ++ ']' :: List.replicate level '=')), ']', [],
        by simp [bracketCloser], by decide, by decide, by simp⟩
  | call c =>
    refine ⟨c.head :: c.opener :: c.body, c.closer, by simp [tokens], ?_⟩
    rw [c.closer_kind]
    exact ⟨[], ')', [], rfl, by decide, by decide, by simp⟩

/-- What stands behind the last line end stands on the last line. -/
theorem mem_lastLine {before text z r : List Char} {d : Char} (h : before ++ text = z ++ d :: r)
    (hstarts : before = [] ∨ before.getLast? = some '\n') (hd : d ≠ '\n') (hr : '\n' ∉ r) :
    ∃ u, text = u ++ d :: r := by
  rcases List.append_eq_append_iff.mp h with ⟨u, -, hu⟩ | ⟨u, rfl, hu⟩
  · exact ⟨u, hu⟩
  · cases u with
    | nil => exact ⟨[], hu.symm⟩
    | cons e u =>
      obtain ⟨rfl, rfl⟩ := List.cons.inj hu
      have hlast : '\n' ∈ d :: u := by
        apply List.mem_of_getLast?
        simpa using hstarts
      rcases List.mem_cons.mp hlast with hn | hn
      · exact absurd hn.symm hd
      · exact absurd (List.mem_append_left text hn) hr

section Read
variable {source : String} {tokens : List Token} {nodes : List Node} {items : List Item}
  (h : ReadAs source tokens nodes items)
include h

/-- Where the tokens are cut the items are cut, or everything stands in front. -/
theorem ReadAs.items_split {ts us : List Token} (hsplit : tokens = ts ++ us) :
    us = [] ∨ ∃ rest, us = rest ++ [endToken (Position.first.after source.toList)] ∧
      items.flatMap Item.tokens = ts ++ rest := by
  rcases List.eq_nil_or_concat us with rfl | ⟨rest, last, rfl⟩
  · exact .inl rfl
  · rw [h.tokens_eq, List.concat_eq_append, ← List.append_assoc] at hsplit
    obtain ⟨hitems, hlast⟩ := List.append_inj' hsplit rfl
    exact .inr ⟨rest, by rw [List.concat_eq_append, hlast], hitems⟩

theorem ReadAs.depth_eq_zero {ts us : List Token} (hsplit : tokens = ts ++ us) {offset : Nat}
    (hts : ∀ t ∈ ts, t.span.stop ≤ offset) (hus : ∀ u ∈ us, offset < u.span.stop)
    (hout : ¬ InsideParentheses tokens nodes offset) : tokenDepth 0 ts = 0 := by
  rcases h.items_split hsplit with rfl | ⟨rest, rfl, hitems⟩
  · rw [List.append_nil] at hsplit
    rw [← hsplit, h.tokens_eq, tokenDepth_endToken, tokenDepth_items]
  · by_contra hd
    exact hout (h.insideParentheses hitems hts (fun u hu => hus u (by simp [hu]))
      (Nat.pos_of_ne_zero hd))

/-- A line end that stands neither between parentheses nor in a bracket comment is an item of its
own. -/
theorem ReadAs.lineEnd_item {before after : List Char}
    (hsource : source.toList = before ++ '\n' :: after)
    (hparentheses : ¬ InsideParentheses tokens nodes (byteLength before))
    (hcomment : ¬ InsideBracketComment tokens (byteLength before)) :
    ∃ front t hk back, items = front ++ .lineEnd t hk :: back ∧
      t.span.start = byteLength before := by
  obtain ⟨t, hmem, hstart, hstop⟩ : Covered tokens (byteLength before) := by
    by_contra hfree
    have hchars : source = String.ofList before ++ "\n" ++ String.ofList after := by
      rw [← String.toList_inj, hsource]
      simp
    have hpos := depth_pos_of_newline h.scanned hchars (by rwa [byteLength_ofList])
    obtain ⟨ts, us, hsplit, hts, hus⟩ := tokens_cut h.scanned (byteLength before)
    rw [byteLength_ofList, hsplit, filter_cut hts hus,
      h.depth_eq_zero hsplit hts hus hparentheses] at hpos
    omega
  obtain ⟨ts, us, hsplit⟩ := List.append_of_mem hmem
  obtain ⟨hbefore, hbehind⟩ := tokens_around h.scanned hsplit
  have hts : ∀ u ∈ ts, u.span.stop ≤ byteLength before :=
    fun u hu => Nat.le_trans (hbefore u hu) hstart
  have hus : ∀ u ∈ t :: us, byteLength before < u.span.stop := by
    intro u hu
    have hle := token_start_le_stop h.scanned (hsplit ▸ List.mem_append_right ts hu)
    rcases List.mem_cons.mp hu with rfl | hu
    · exact hstop
    · have := hbehind u hu
      omega
  have hd := h.depth_eq_zero hsplit hts hus hparentheses
  have hfits : t.kind.FitsAt 0 := by
    have hin := inStep_of_scan h.scanned
    rw [hsplit] at hin
    exact hd ▸ InStep.fits ts hin
  have hn := mem_spelling h.scanned hmem hsource hstart hstop
  rcases TokenKind.newline_or_comment (h.spelled t hmem) hfits hn with hk | ⟨text, hk⟩
  · obtain ⟨chars, _, -, hspan, -⟩ := newline_bytes h.scanned hmem hk
    have hplace : t.span.start = byteLength before := by
      simp only [hspan] at hstart hstop ⊢
      omega
    rcases h.items_split hsplit with hnil | ⟨rest, hrest, hitems⟩
    · simp at hnil
    · cases rest with
      | nil => simp_all [endToken]
      | cons u rest =>
        obtain ⟨rfl, -⟩ := List.cons.inj hrest
        obtain ⟨front, back, hcut, -⟩ := lineEnd_of_cut hitems hk hd
        exact ⟨front, t, hk, back, hcut, hplace⟩
  · exact absurd ⟨t, hmem, text, hk, hstart, hstop⟩ hcomment

/-- No item stands on a blank line. -/
theorem ReadAs.not_started {front back : List Item} {t : Token} {hk : t.kind = .newline}
    (hitems : items = front ++ .lineEnd t hk :: back) {before text after : List Char}
    (hsource : source.toList = before ++ text ++ after)
    (hplace : t.span.start = byteLength (before ++ text))
    (hstarts : before = [] ∨ before.getLast? = some '\n') (hblank : IsBlankText before text) :
    Item.lineStarted front = false := by
  rcases List.eq_nil_or_concat front with rfl | ⟨others, i, rfl⟩
  · rfl
  rw [List.concat_eq_append] at hitems ⊢
  rw [Item.lineStarted_append, Bool.not_eq_false']
  by_contra hends
  have htokens := h.tokens_split hitems
  have hspelled : ∀ u ∈ i.tokens, u.kind.Spelled := by
    intro u hu
    exact h.spelled u (by simp [htokens, hu])
  obtain ⟨first, w, hw, x, d, y, hmark, hd, hnomark, hy⟩ :=
    Item.marksLine hspelled (Bool.eq_false_iff.mpr hends)
  have hfront : (others ++ [i]).flatMap Item.tokens =
      others.flatMap Item.tokens ++ first ++ [w] := by
    simp [hw]
  have haround := htokens
  rw [hfront, List.append_assoc (_ ++ first)] at haround
  -- Between the mark and the line end stand blanks only, all on this line.
  obtain ⟨chars, gap, hgap, hstops⟩ := gap_before h.scanned haround hsource hplace
  rw [← hfront] at hstops
  rw [hgap] at hsource hplace
  have hfree := (blank_before h.scanned htokens (tokenDepth_items _) hsource hstops hplace).1
  have hdn : d ≠ '\n' := by
    rintro rfl
    exact absurd hd (by decide)
  have hsplit : before ++ text = (chars ++ x) ++ d :: (y ++ gap) := by
    rw [hgap, hmark]
    simp
  obtain ⟨u, hu⟩ := mem_lastLine hsplit hstarts hdn (by simp [hy, hfree])
  rcases hblank u d _ hu with hb | ⟨-, hb⟩
  · simp [hb] at hd
  · exact hnomark hb

end Read

/-- A blank line of the source is read as one. -/
theorem ReadAs.blankLine_mem {source : String} {tokens : List Token} {nodes : List Node}
    {items : List Item} (h : ReadAs source tokens nodes items) {number : Nat}
    (hline : IsBlankLine source tokens nodes number) : .blankLine number ∈ nodes := by
  obtain ⟨before, text, ⟨⟨after, hsource⟩, hstarts, hwhole, hnumber⟩, hblank, hparentheses,
    hcomment⟩ := hline
  obtain ⟨front, t, hk, back, hitems, hplace⟩ := h.lineEnd_item hsource hparentheses hcomment
  have hstarted := h.not_started hitems hsource hplace hstarts hblank
  have hmem : t ∈ tokens := by simp [h.tokens_split hitems]
  have hline : t.line = number := by
    rw [(token_textAt h.scanned t hmem).line_eq, hplace, lineAt_byteLength hsource,
      List.count_append, List.count_eq_zero.mpr hwhole, hnumber]
    rfl
  rw [h.nodes_eq]
  exact blankLine_mem_iff.mpr ⟨front, t, hk, back, hitems, hstarted, hline⟩

/-- What is read behind a blank line starts on a later line. -/
theorem blankLine_apart {source : String} {nodes : List Node} (h : readScript source = .ok nodes) :
    nodes.Pairwise fun m n => m.firstKind = .newline → m.line < n.line := by
  obtain ⟨items, hnodes⟩ := nodes_startWith h
  obtain ⟨last, -, hs⟩ := hnodes.tokens
  let place (t : Token) : TokenKind × Nat := (t.kind, lineAt source t.span.start)
  have hplaces : nodes.map (fun n => (n.firstKind, n.line)) = (nodeTokens [] items).map place := by
    rw [← List.forall₂_eq_eq_eq, List.forall₂_map_left_iff, List.forall₂_map_right_iff]
    apply hnodes.starts.imp
    intro n t hn
    show (n.firstKind, n.line) = (t.kind, lineAt source t.span.start)
    rw [hn.kind, hn.line]
  have hordered : ((nodeTokens [] items).map place).Pairwise
      fun x y => x.1 = .newline → x.2 < y.2 := by
    rw [List.pairwise_map]
    apply hnodes.ordered.imp_of_mem
    intro t u ht _ htu hk
    show lineAt source t.span.start < lineAt source u.span.start
    have hmem : t ∈ items.flatMap Item.tokens ++ [last] :=
      List.mem_append_left _ ((nodeTokens_sublist [] items).subset ht)
    obtain ⟨before, after, hsource, hspan, -⟩ := newline_bytes hs hmem hk
    have hbehind : source.toList = (before ++ ['\n']) ++ after := by simp [hsource]
    have hnext : lineAt source (byteLength before + 1) = 1 + (before ++ ['\n']).count '\n' := by
      rw [← lineAt_byteLength hbehind, byteLength_append]
      rfl
    rw [hspan] at htu ⊢
    have hmono : lineAt source (byteLength before + 1) ≤ lineAt source u.span.start :=
      lineAt_mono source htu
    rw [hnext, List.count_append, List.count_singleton_self] at hmono
    rw [lineAt_byteLength hsource]
    omega
  rw [← hplaces, List.pairwise_map] at hordered
  exact hordered

/-- The blank lines of a source are read as such, each once, and nothing else is. -/
theorem blankLines_exact {source : String} {tokens : List Token} {nodes : List Node}
    (hs : scan source = .ok tokens) (hp : parse tokens = .ok nodes) (number : Nat) :
    (.blankLine number ∈ nodes ↔ IsBlankLine source tokens nodes number) ∧
      nodes.count (.blankLine number) ≤ 1 := by
  obtain ⟨items, h⟩ := readAs_items hs hp
  refine ⟨⟨h.isBlankLine, h.blankLine_mem⟩, ?_⟩
  by_contra hcount
  have htwice : List.replicate 2 (.blankLine number) <+ nodes :=
    List.replicate_sublist_iff.mpr (by omega)
  have hapart := (blankLine_apart ((readScript_of_scan hs).trans hp)).sublist htwice
  have hlt := List.rel_of_pairwise_cons hapart (List.mem_singleton_self _) rfl
  exact Nat.lt_irrefl _ hlt

/-- Behind a byte order mark, between parentheses, behind a command and in a comment. -/
def spacedSource : String := "\ufeff \nf(\n\n)\n\t\n#[[\n\n]]\n"

def spacedTokens : List Token :=
  [⟨.newline, ⟨4, 5⟩, 1⟩, ⟨.ident "f", ⟨5, 6⟩, 2⟩, ⟨.leftParen, ⟨6, 7⟩, 2⟩,
    ⟨.rightParen, ⟨9, 10⟩, 4⟩, ⟨.newline, ⟨10, 11⟩, 4⟩, ⟨.newline, ⟨12, 13⟩, 5⟩,
    ⟨.bracketComment "#[[\n\n]]", ⟨13, 20⟩, 6⟩, ⟨.newline, ⟨20, 21⟩, 8⟩,
    ⟨.endOfFile, ⟨21, 21⟩, 9⟩]

def spacedNodes : List Node :=
  [.blankLine 1, .invocation ⟨"f", [], ⟨5, 10⟩, 2⟩, .blankLine 5,
    .comment ⟨.bracket, "#[[\n\n]]", 6⟩]

/-- The lines between the parentheses and in the comment are empty, and not blank lines. -/
theorem blankLines_exact_spaced :
    scan spacedSource = .ok spacedTokens ∧ parse spacedTokens = .ok spacedNodes ∧
      IsBlankLine spacedSource spacedTokens spacedNodes 1 ∧
      ¬ IsBlankLine spacedSource spacedTokens spacedNodes 3 ∧
      IsBlankLine spacedSource spacedTokens spacedNodes 5 ∧
      ¬ IsBlankLine spacedSource spacedTokens spacedNodes 7 := by
  have hs : scan spacedSource = .ok spacedTokens := by decide +kernel
  have hp : parse spacedTokens = .ok spacedNodes := by decide +kernel
  exact ⟨hs, hp, (blankLines_exact hs hp 1).1.mp (by decide),
    fun h => absurd ((blankLines_exact hs hp 3).1.mpr h) (by decide),
    (blankLines_exact hs hp 5).1.mp (by decide),
    fun h => absurd ((blankLines_exact hs hp 7).1.mpr h) (by decide)⟩

end CMakeManual.Script
