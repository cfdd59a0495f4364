import CMakeManual.Proofs.Script.Reprinting
import CMakeManual.Proofs.Text.Bytes
import Mathlib.Data.List.Forall2

/-! Places are exact. Tokens and faults stand at the bytes of the text they are about and on the
line where it starts; nodes start with a token and follow each other as these do. -/
namespace CMakeManual.Script
open Text
open scoped List

/-- The line of the byte at `offset`: one more than there are line ends among the bytes before. -/
def lineAt (source : String) (offset : Nat) : Nat :=
  1 + (source.toByteArray.data.toList.take offset).count 10

theorem lineAt_mono (source : String) {i j : Nat} (h : i ≤ j) :
    lineAt source i ≤ lineAt source j := by
  have hprefix := List.take_prefix_take_left (l := source.toByteArray.data.toList) h
  have hcount := hprefix.sublist.count_le (10 : UInt8)
  unfold lineAt
  omega

/-- In front of a character lines are counted in characters. -/
theorem lineAt_byteLength {source : String} {before after : List Char}
    (h : source.toList = before ++ after) :
    lineAt source (byteLength before) = 1 + before.count '\n' := by
  have hsource : source = String.ofList before ++ String.ofList after := by
    rw [← String.toList_inj, h]
    simp
  have hsize : (String.ofList before).toByteArray.data.toList.length = byteLength before :=
    byteLength_ofList before
  have hbytes : (String.ofList before).toByteArray.data.toList =
      before.flatMap String.utf8EncodeChar := by
    simp [List.utf8Encode]
  have htake : source.toByteArray.data.toList.take (byteLength before) =
      before.flatMap String.utf8EncodeChar := by
    rw [hsource, String.toByteArray_append, ByteArray.data_append, Array.toList_append,
      List.take_left' hsize, hbytes]
  rw [lineAt, htake]
  exact congrArg (1 + ·) (count_utf8EncodeChar (q := '\n') (by decide) before)

/-- `text` stands in `source` at the bytes of `span`, and starts on line `line`. -/
def TextAt (source : String) (span : Span) (line : Nat) (text : List Char) : Prop :=
  ∃ before after, source.toList = before ++ text ++ after ∧
    span = (Position.first.after before).span text ∧ line = (Position.first.after before).line

namespace TextAt
variable {source : String} {s t : Span} {line line' : Nat} {x y : List Char}

theorem line_eq (h : TextAt source s line x) : line = lineAt source s.start := by
  obtain ⟨before, after, hs, rfl, rfl⟩ := h
  rw [List.append_assoc] at hs
  simp [Position.span, Position.after, Position.first, lineAt_byteLength hs]

theorem sliceAt (h : TextAt source s line x) : SliceAt source s (String.ofList x) := by
  obtain ⟨before, after, hs, rfl, -⟩ := h
  apply sliceAt_of_toList before after
  · rw [hs, String.toList_ofList]
  · rw [String.toList_ofList, Position.span, ← Position.after_append, offset_first_after,
      offset_first_after]

theorem start_le_stop (h : TextAt source s line x) : s.start ≤ s.stop := by
  obtain ⟨before, after, -, rfl, -⟩ := h
  exact Nat.le_add_right _ _

/-- From the start of one text to the end of a later one stands the text that begins with the first
and ends with the second. -/
theorem join (hx : TextAt source s line x) (hy : TextAt source t line' y)
    (h : s.stop ≤ t.start) : ∃ mid, TextAt source (s.join t) line (x ++ mid ++ y) := by
  obtain ⟨before, after, hs, rfl, rfl⟩ := hx
  obtain ⟨before', after', ht, rfl, rfl⟩ := hy
  have hle : byteLength (before ++ x) ≤ byteLength before' := by
    simpa [Position.span, ← Position.after_append, offset_first_after] using h
  have hfront : before ++ x <+: source.toList := ⟨after, hs.symm⟩
  have hback : before' <+: source.toList := ⟨y ++ after', by rw [ht, List.append_assoc]⟩
  obtain ⟨mid, rfl⟩ := prefix_of_byteLength_le hfront hback hle
  refine ⟨mid, before, after', ?_, ?_, rfl⟩
  · rw [ht]
    simp
  · simp only [Span.join, Position.span, Position.after, Position.first, byteLength_append,
      Span.mk.injEq]
    omega

end TextAt

theorem mem_place {p : Position} {ls : List Lexeme} {x : Placed} (h : x ∈ place p ls) :
    ∃ before after, ls = before ++ x.lexeme :: after ∧
      x.position = p.after (before.flatMap Lexeme.text) := by
  induction ls generalizing p with
  | nil => simp [place] at h
  | cons l ls ih =>
    rcases List.mem_cons.mp h with rfl | h
    · exact ⟨[], ls, rfl, rfl⟩
    · obtain ⟨before, after, rfl, hp⟩ := ih h
      exact ⟨l :: before, after, rfl, by simpa using hp⟩

/-- A lexeme stands at its place. -/
theorem placed_textAt {source : String} {x : Placed}
    (h : x ∈ place .first (lexemes source.toList)) :
    TextAt source x.span x.position.line x.lexeme.text := by
  obtain ⟨before, after, hl, hp⟩ := mem_place h
  refine ⟨before.flatMap Lexeme.text, after.flatMap Lexeme.text, ?_, ?_, ?_⟩
  · rw [← lexemes_text source.toList, hl]
    simp
  · rw [Placed.span, hp]
  · rw [hp]

/-- Every token stands at its place. -/
theorem token_textAt {source : String} {tokens : List Token} (h : scan source = .ok tokens) :
    ∀ t ∈ tokens, TextAt source t.span t.line t.kind.spelling.toList := by
  obtain ⟨-, rfl⟩ := scan_eq_ok.mp h
  intro t ht
  rcases List.mem_append.mp ht with ht | ht
  · obtain ⟨x, hx, hxt⟩ := List.mem_filterMap.mp ht
    obtain ⟨kind, hk, rfl⟩ := Option.map_eq_some_iff.mp hxt
    obtain ⟨before, after, hl, -⟩ := mem_place hx
    have hspelled : kind.spelling.toList = x.lexeme.text := by
      rcases (lexeme_of_lexemes hl).2 with hfits | ⟨-, hm⟩
      · exact Lexeme.spelling_of_kind? hk hfits
      · simp [hm, Lexeme.kind?] at hk
    rw [hspelled]
    exact placed_textAt hx
  · obtain rfl := List.mem_singleton.mp ht
    refine ⟨source.toList, [], ?_, rfl, rfl⟩
    simp [endToken, TokenKind.spelling]

theorem scan_fault_textAt {source : String} {faults : List Fault}
    (h : scan source = .error faults) :
    ∀ f ∈ faults, ∃ text, TextAt source f.span f.line text := by
  have hfaults : (place .first (lexemes source.toList)).filterMap Placed.fault? = faults := by
    simp only [scan] at h
    split at h
    · simp at h
    · exact Except.error.inj h
  intro f hf
  rw [← hfaults] at hf
  obtain ⟨x, hx, hxf⟩ := List.mem_filterMap.mp hf
  obtain ⟨cause, -, rfl⟩ := Option.map_eq_some_iff.mp hxf
  exact ⟨x.lexeme.text, placed_textAt hx⟩

theorem ArgumentList.rest_prepend (front : List Argument) (l : ArgumentList) :
    (l.prepend front).rest = l.rest := by
  cases l with
  | closed arguments close rest => rw [prepend_closed]; rfl
  | unclosed stop rest => rw [prepend_unclosed]

/-- Reading a body goes on behind tokens that were read. -/
theorem argumentList_suffix (depth : Nat) (ts : List Token) :
    (argumentList depth ts).rest <:+ ts := by
  induction ts generalizing depth with
  | nil => exact List.suffix_refl []
  | cons t ts ih =>
    rcases argumentList_cons_cases depth t ts with ⟨-, hr⟩ | ⟨-, -, hr⟩ | ⟨-, -, hr⟩
    · rw [hr]
      exact List.suffix_cons t ts
    · rw [hr]
      exact List.suffix_cons t ts
    · rw [hr, ArgumentList.rest_prepend]
      exact (ih _).trans (List.suffix_cons t ts)

/-- A body that the end of the file cuts off is reported up to that. -/
theorem stop_mem_of_argumentList {depth : Nat} {ts rest : List Token} {stop : Token}
    (h : argumentList depth ts = .unclosed (some stop) rest) : stop ∈ ts := by
  induction ts generalizing depth with
  | nil => simp [argumentList] at h
  | cons t ts ih =>
    rcases argumentList_cons_cases depth t ts with ⟨-, hr⟩ | ⟨-, -, hr⟩ | ⟨-, -, hr⟩
    · rw [hr] at h
      simp only [ArgumentList.unclosed.injEq, Option.some.injEq] at h
      simp [h.1]
    · rw [hr] at h
      cases h
    · rw [hr] at h
      cases hl : argumentList (t.opens.toNat + depth - t.closes.toNat) ts with
      | closed arguments close others =>
        rw [hl, ArgumentList.prepend_closed] at h
        cases h
      | unclosed stop' others =>
        rw [hl, ArgumentList.prepend_unclosed] at h
        exact List.mem_cons_of_mem t (ih (hl.trans h))

theorem nextLine_suffix (ts : List Token) : nextLine ts <:+ ts := List.dropWhile_suffix _

theorem statement_suffix (name : String) (t : Token) (ts : List Token) :
    (statement name t ts).2 <:+ ts := by
  unfold statement
  split
  next paren ts =>
    have hsuffix := (argumentList_suffix 0 ts).trans (List.suffix_cons paren ts)
    split
    · split
      next arguments close rest hl => rwa [hl] at hsuffix
      next stop rest hl =>
        rw [hl] at hsuffix
        exact (nextLine_suffix rest).trans hsuffix
    · exact nextLine_suffix _
  next => exact List.suffix_refl []

/-- What is wrong with a statement is said of its name, or of the text from its name to the end. -/
def Fault.IsAbout (f : Fault) (t : Token) (behind : List Token) : Prop :=
  f.line = t.line ∧ (f.span = t.span ∨ ∃ u ∈ behind, f.span = t.span.join u.span)

theorem statement_fault {name : String} {t : Token} {ts : List Token} {f : Fault}
    (h : (statement name t ts).1 = .error f) : f.IsAbout t ts := by
  unfold statement at h
  split at h
  next paren ts =>
    split at h
    · split at h
      next => simp at h
      next stop rest hl =>
        obtain rfl := Except.error.inj h
        cases stop with
        | none => exact ⟨rfl, .inl rfl⟩
        | some u =>
          exact ⟨rfl, .inr ⟨u, List.mem_cons_of_mem paren (stop_mem_of_argumentList hl), rfl⟩⟩
    · obtain rfl := Except.error.inj h
      exact ⟨rfl, .inl rfl⟩
  next =>
    obtain rfl := Except.error.inj h
    exact ⟨rfl, .inl rfl⟩

/-- Every fault of a reading is about one of the tokens. -/
theorem fault_of_readFrom {started : Bool} {ts : List Token} {f : Fault}
    (h : f ∈ (readFrom started ts).faults) :
    ∃ t behind, t :: behind <:+ ts ∧ f.IsAbout t behind := by
  fun_induction readFrom started ts with
  | case1 => simp at h
  | case2 => simp at h
  | case3 t ts hk ih =>
    obtain ⟨u, behind, hs, hf⟩ := ih h
    exact ⟨u, behind, hs.trans (List.suffix_cons t ts), hf⟩
  | case4 started t ts hk hs ih =>
    obtain ⟨u, behind, hs, hf⟩ := ih h
    exact ⟨u, behind, hs.trans (List.suffix_cons t ts), hf⟩
  | case5 started t ts text hk ih =>
    obtain ⟨u, behind, hs, hf⟩ := ih h
    exact ⟨u, behind, hs.trans (List.suffix_cons t ts), hf⟩
  | case6 started t ts text hk ih =>
    obtain ⟨u, behind, hs, hf⟩ := ih h
    exact ⟨u, behind, hs.trans (List.suffix_cons t ts), hf⟩
  | case7 started t ts name hk read command hr ih =>
    obtain ⟨u, behind, hs, hf⟩ := ih h
    exact ⟨u, behind, (hs.trans (statement_suffix name t ts)).trans (List.suffix_cons t ts), hf⟩
  | case8 started t ts name hk read fault hr ih =>
    rcases List.mem_cons.mp h with rfl | h
    · exact ⟨t, ts, List.suffix_refl _, statement_fault hr⟩
    · obtain ⟨u, behind, hs, hf⟩ := ih h
      exact ⟨u, behind, (hs.trans (statement_suffix name t ts)).trans (List.suffix_cons t ts), hf⟩
  | case9 started t ts _ _ _ _ _ ih =>
    rcases List.mem_cons.mp h with rfl | h
    · exact ⟨t, ts, List.suffix_refl _, rfl, .inl rfl⟩
    · obtain ⟨u, behind, hs, hf⟩ := ih h
      exact ⟨u, behind, (hs.trans (nextLine_suffix ts)).trans (List.suffix_cons t ts), hf⟩

/-- A fault lies inside the source, between characters, and is reported on the line of its start. -/
structure Fault.IsPlaced (source : String) (f : Fault) : Prop where
  line : f.line = lineAt source f.span.start
  start : (⟨f.span.start⟩ : String.Pos.Raw).IsValid source
  stop : (⟨f.span.start + f.span.length⟩ : String.Pos.Raw).IsValid source
  inside : f.span.start + f.span.length ≤ source.utf8ByteSize

/-- What stands in front of some of the characters ends at a character. -/
theorem isValid_of_toList {source : String} {before after : List Char}
    (h : source.toList = before ++ after) :
    (⟨byteLength before⟩ : String.Pos.Raw).IsValid source := by
  rw [String.Pos.Raw.isValid_iff_exists_append]
  refine ⟨String.ofList before, String.ofList after, ?_, ?_⟩
  · rw [← String.toList_inj, h]
    simp
  · rw [String.rawEndPos, byteLength_ofList]

theorem TextAt.fault_isPlaced {source : String} {f : Fault} {text : List Char}
    (h : TextAt source f.span f.line text) : f.IsPlaced source := by
  have hline := h.line_eq
  obtain ⟨before, after, hs, hspan, -⟩ := h
  have hstart : f.span.start = byteLength before := by
    rw [hspan, Position.span, offset_first_after]
  have hstop : f.span.start + f.span.length = byteLength (before ++ text) := by
    rw [hstart, hspan, Position.span_length, byteLength_append]
  refine ⟨hline, ?_, ?_, ?_⟩
  · rw [hstart]
    rw [List.append_assoc] at hs
    exact isValid_of_toList hs
  · rw [hstop]
    exact isValid_of_toList hs
  · rw [hstop, ← byteLength_toList, hs, byteLength_append (before ++ text)]
    omega

/-- A fault about a token of a script is about the text from there on. -/
theorem Fault.IsAbout.textAt {source : String} {tokens behind : List Token} {t : Token} {f : Fault}
    (h : f.IsAbout t behind) (hs : scan source = .ok tokens) (ht : t :: behind <:+ tokens) :
    ∃ text, TextAt source f.span f.line text := by
  obtain ⟨hline, hspan⟩ := h
  have hplaced : ∀ u ∈ t :: behind, TextAt source u.span u.line u.kind.spelling.toList :=
    fun u hu => token_textAt hs u (ht.subset hu)
  have hfirst := hplaced t (by simp)
  rw [hline]
  rcases hspan with hspan | ⟨u, hu, hspan⟩
  · rw [hspan]
    exact ⟨_, hfirst⟩
  · have horder := List.rel_of_pairwise_cons ((scan_ordered hs).sublist ht.sublist) hu
    obtain ⟨mid, hjoined⟩ := hfirst.join (hplaced u (by simp [hu])) horder
    rw [hspan]
    exact ⟨_, hjoined⟩

theorem faults_isPlaced {source : String} {faults : List Fault}
    (h : readScript source = .error faults) : ∀ f ∈ faults, f.IsPlaced source := by
  intro f hf
  cases hs : scan source with
  | error others =>
    obtain rfl : others = faults := by simpa [readScript, hs, Except.bind] using h
    obtain ⟨text, ht⟩ := scan_fault_textAt hs f hf
    exact ht.fault_isPlaced
  | ok tokens =>
    have hread : (readFrom false tokens).faults = faults := by
      rw [readScript_of_scan hs] at h
      simp only [parse] at h
      split at h
      · simp at h
      · exact Except.error.inj h
    rw [← hread] at hf
    obtain ⟨t, behind, ht, habout⟩ := fault_of_readFrom hf
    obtain ⟨text, ht⟩ := habout.textAt hs ht
    exact ht.fault_isPlaced

/-- The token that an item starts with. -/
def Item.first : Item → Token
  | .lineEnd t _ | .lineComment t _ _ | .bracketComment t _ _ => t
  | .call c => c.head

/-- The kind of token that a node starts with. -/
def Node.firstKind : Node → TokenKind
  | .invocation command => .ident command.name
  | .comment ⟨.line, text, _⟩ => .lineComment text
  | .comment ⟨.bracket, text, _⟩ => .bracketComment text
  | .blankLine _ => .newline

/-- The node starts with the token `t`, on its line. A command is the text from its name to a
closing parenthesis. -/
structure Node.StartsWith (source : String) (n : Node) (t : Token) : Prop where
  kind : t.kind = n.firstKind
  line : n.line = lineAt source t.span.start
  extent : ∀ c, n = .invocation c → c.span.start = t.span.start ∧
    ∃ inside, SliceAt source c.span (c.name ++ inside ++ ")")

theorem Item.first_mem (i : Item) : i.first ∈ i.tokens := by
  cases i <;> simp [first, tokens]

/-- The first tokens of those items that give a node behind the items `before`. -/
def nodeTokens (before : List Item) : List Item → List Token
  | [] => []
  | i :: is =>
      (if (i.node? before).isSome then [i.first] else []) ++ nodeTokens (before ++ [i]) is

theorem nodeTokens_sublist (before items : List Item) :
    nodeTokens before items <+ items.flatMap Item.tokens := by
  induction items generalizing before with
  | nil => exact List.Sublist.refl []
  | cons i items ih =>
    rw [nodeTokens, List.flatMap_cons]
    refine List.Sublist.append ?_ (ih _)
    split
    · exact List.singleton_sublist.mpr i.first_mem
    · exact List.nil_sublist _

/-- What holds of each node and the first token of its item holds along the nodes. -/
theorem nodesBehind_nodeTokens {R : Node → Token → Prop} (before : List Item) {items : List Item}
    (h : ∀ i ∈ items, ∀ front n, Item.node? front i = some n → R n i.first) :
    List.Forall₂ R (nodesBehind before items) (nodeTokens before items) := by
  induction items generalizing before with
  | nil => exact .nil
  | cons i items ih =>
    have hrest := ih (before ++ [i]) fun j hj => h j (by simp [hj])
    rw [nodesBehind, nodeTokens]
    cases hn : i.node? before with
    | none => exact hrest
    | some n => exact .cons (h i (by simp) before n hn) hrest

/-- A call stands in the source from its name to its closing parenthesis. -/
theorem Call.textAt {source : String} {tokens : List Token} (hs : scan source = .ok tokens)
    (c : Call) (h : (Item.call c).tokens <+ tokens) :
    c.invocation.span.start = c.head.span.start ∧
      ∃ mid, TextAt source c.invocation.span c.head.line (c.name.toList ++ mid ++ [')']) := by
  have hhead := token_textAt hs c.head (h.subset (by simp [Item.tokens]))
  have hclose := token_textAt hs c.closer (h.subset (by simp [Item.tokens]))
  have hpairs := (scan_ordered hs).sublist h
  have horder : c.head.span.stop ≤ c.closer.span.start :=
    List.rel_of_pairwise_cons hpairs (by simp)
  have hstart : c.invocation.span.start = c.head.span.start :=
    Nat.min_eq_left (Nat.le_trans hhead.start_le_stop horder)
  rw [c.head_kind] at hhead
  rw [c.closer_kind] at hclose
  exact ⟨hstart, hhead.join hclose horder⟩

theorem Item.node_startsWith {source : String} {tokens : List Token}
    (hs : scan source = .ok tokens) {i : Item} (hi : i.tokens <+ tokens) {before : List Item}
    {n : Node} (hn : i.node? before = some n) : n.StartsWith source i.first := by
  have hline : i.first.line = lineAt source i.first.span.start :=
    (token_textAt hs i.first (hi.subset i.first_mem)).line_eq
  cases i with
  | lineEnd t hk =>
    simp only [node?] at hn
    split at hn
    · simp at hn
    · obtain rfl := Option.some.inj hn
      exact ⟨hk, hline, by simp⟩
  | lineComment t text hk =>
    obtain rfl := Option.some.inj hn
    exact ⟨hk, hline, by simp⟩
  | bracketComment t text hk =>
    obtain rfl := Option.some.inj hn
    exact ⟨hk, hline, by simp⟩
  | call c =>
    obtain rfl := Option.some.inj hn
    obtain ⟨hstart, mid, hcall⟩ := c.textAt hs hi
    refine ⟨c.head_kind, hline, ?_⟩
    rintro command ⟨⟩
    have hslice := hcall.sliceAt
    rw [String.ofList_append, String.ofList_append, String.ofList_toList] at hslice
    exact ⟨hstart, String.ofList mid, hslice⟩

/-- Nodes start with the first tokens of their items, one behind the other. -/
structure NodesStartWith (source : String) (nodes : List Node) (items : List Item) : Prop where
  tokens : ∃ last, last.kind = .endOfFile ∧
    scan source = .ok (items.flatMap Item.tokens ++ [last])
  starts : List.Forall₂ (Node.StartsWith source) nodes (nodeTokens [] items)
  ordered : (nodeTokens [] items).Pairwise fun t u => t.span.start < u.span.start

theorem nodes_startWith {source : String} {nodes : List Node}
    (h : readScript source = .ok nodes) : ∃ items, NodesStartWith source nodes items := by
  obtain ⟨items, htokens, hs, rfl⟩ := items_of_readScript h
  refine ⟨items, ⟨_, rfl, hs⟩, ?_, ?_⟩
  · apply nodesBehind_nodeTokens
    intro i hi front n hn
    have htokens : i.tokens <+ items.flatMap Item.tokens :=
      List.sublist_flatten_of_mem (List.mem_map_of_mem hi)
    exact Item.node_startsWith hs (htokens.trans (List.sublist_append_left _ _)) hn
  · have hsub := nodeTokens_sublist [] items
    have horder := (scan_ordered hs).sublist (hsub.trans (List.sublist_append_left _ _))
    apply horder.imp_of_mem
    intro t u ht _ htu
    -- A token of the script is not empty, so the next starts behind its start.
    rw [← htokens] at hsub
    exact Nat.lt_of_lt_of_le (sliceAt_of_mem (hsub.subset ht)).2.2 htu

theorem node_startsWith {source : String} {nodes : List Node} (h : readScript source = .ok nodes)
    {n : Node} (hn : n ∈ nodes) : ∃ t, n.StartsWith source t := by
  obtain ⟨items, hnodes⟩ := nodes_startWith h
  have hall := hnodes.starts
  clear h hnodes
  generalize nodeTokens [] items = firsts at hall
  induction hall with
  | nil => simp at hn
  | @cons m t _ _ hm _ ih =>
    rcases List.mem_cons.mp hn with rfl | hn
    · exact ⟨t, hm⟩
    · exact ih hn

theorem command_line {source : String} {nodes : List Node} (h : readScript source = .ok nodes)
    {c : Invocation} (hc : .invocation c ∈ nodes) : c.line = lineAt source c.span.start := by
  obtain ⟨t, ht⟩ := node_startsWith h hc
  rw [(ht.extent c rfl).1]
  exact ht.line

/-- A command is not empty. -/
theorem command_start_lt_stop {source : String} {nodes : List Node}
    (h : readScript source = .ok nodes) {c : Invocation} (hc : .invocation c ∈ nodes) :
    c.span.start < c.span.stop := by
  obtain ⟨t, ht⟩ := node_startsWith h hc
  obtain ⟨-, inside, before, after, -, hstart, hstop⟩ := ht.extent c rfl
  have hcloser : ")".utf8ByteSize = 1 := by decide
  rw [hstart, hstop, String.utf8ByteSize_append, hcloser]
  omega

/-- The lines of nodes do not decrease. -/
theorem nodes_lines {source : String} {nodes : List Node} (h : readScript source = .ok nodes) :
    (nodes.map Node.line).Pairwise (· ≤ ·) := by
  obtain ⟨items, hnodes⟩ := nodes_startWith h
  have hlines : nodes.map Node.line =
      (nodeTokens [] items).map fun t => lineAt source t.span.start := by
    rw [← List.forall₂_eq_eq_eq, List.forall₂_map_left_iff, List.forall₂_map_right_iff]
    exact hnodes.starts.imp fun _ _ hn => hn.line
  rw [hlines, List.pairwise_map]
  exact hnodes.ordered.imp fun htu => lineAt_mono source (Nat.le_of_lt htu)

/-- What holds of items, one behind the other, holds of their nodes. -/
theorem nodesBehind_pairwise {R : Node → Node → Prop} (before : List Item) {items : List Item}
    (h : items.Pairwise fun i j => ∀ front back m n, Item.node? front i = some m →
      Item.node? back j = some n → R m n) : (nodesBehind before items).Pairwise R := by
  induction items generalizing before with
  | nil => exact .nil
  | cons i items ih =>
    obtain ⟨hfirst, hrest⟩ := List.pairwise_cons.mp h
    rw [nodesBehind, List.pairwise_append]
    refine ⟨?_, ih (before ++ [i]) hrest, ?_⟩
    · cases i.node? before with
      | none => exact .nil
      | some m => exact List.pairwise_singleton R m
    · intro m hm n hn
      obtain ⟨j, hj, back, hback⟩ := mem_nodesBehind hn
      exact hfirst j hj before back m n (Option.mem_toList.mp hm) hback

/-- A command ends on the line where a later node starts, or before. -/
theorem commands_end {source : String} {nodes : List Node} (h : readScript source = .ok nodes) :
    nodes.Pairwise fun m n => ∀ c, m = .invocation c →
      lineAt source (c.span.stop - 1) ≤ n.line := by
  obtain ⟨items, -, hs, rfl⟩ := items_of_readScript h
  have hsub : ∀ i ∈ items, i.tokens <+ items.flatMap Item.tokens ++
      [endToken (Position.first.after source.toList)] := fun i hi =>
    (List.sublist_flatten_of_mem (List.mem_map_of_mem hi)).trans (List.sublist_append_left _ _)
  have hordered := (scan_ordered hs).sublist (List.sublist_append_left _ _)
  apply nodesBehind_pairwise
  apply (List.pairwise_flatMap.mp hordered).2.imp_of_mem
  intro i j hi hj hij front back m n hm hn c hc
  subst hc
  cases i with
  | lineEnd t hk => simp [Item.node?] at hm
  | lineComment t text hk => simp [Item.node?] at hm
  | bracketComment t text hk => simp [Item.node?] at hm
  | call call =>
    obtain rfl : call.invocation = c := by simpa [Item.node?] using hm
    have hhead := hij call.head (by simp [Item.tokens]) j.first j.first_mem
    have hcloser := hij call.closer (by simp [Item.tokens]) j.first j.first_mem
    have hstop : call.invocation.span.stop = max call.head.span.stop call.closer.span.stop := rfl
    rw [(Item.node_startsWith hs (hsub j hj) hn).line]
    exact lineAt_mono source (by omega)

end CMakeManual.Script
