import CMakeManual.Script.Parse

/-! The grammar of token lists. A list is read without a fault exactly if it is a row of items,
which are line ends, comments and invocations, up to its end or to an end of file token. -/
namespace CMakeManual.Script

section Nesting
variable {α β : Type} {opens closes : α → Bool}

/-- The list closes `depth` parentheses more than it opens, and no front part closes more. -/
structure Nested (opens closes : α → Bool) (depth : Nat) (xs : List α) : Prop where
  front : ∀ ys, ys <+: xs → ys.countP closes ≤ ys.countP opens + depth
  total : xs.countP closes = xs.countP opens + depth

theorem nested_nil {depth : Nat} : Nested opens closes depth [] ↔ depth = 0 := by
  constructor
  · intro h
    simpa using h.total.symm
  · rintro rfl
    constructor
    · intro ys hys
      simp [List.prefix_nil.mp hys]
    · rfl

theorem nested_cons {depth : Nat} {x : α} {xs : List α} :
    Nested opens closes depth (x :: xs) ↔
      (closes x).toNat ≤ (opens x).toNat + depth ∧
        Nested opens closes ((opens x).toNat + depth - (closes x).toNat) xs := by
  have count (p : α → Bool) (ys : List α) :
      (x :: ys).countP p = ys.countP p + (p x).toNat := by
    cases hp : p x <;> simp [hp]
  constructor
  · intro h
    have hx := h.front [x] (by simp)
    rw [count, count, List.countP_nil, List.countP_nil] at hx
    refine ⟨by omega, ?_, ?_⟩
    · intro ys hys
      have hf := h.front (x :: ys) ((List.prefix_cons_inj x).mpr hys)
      rw [count, count] at hf
      omega
    · have ht := h.total
      rw [count, count] at ht
      omega
  · rintro ⟨hx, h⟩
    constructor
    · intro ys hys
      rcases List.prefix_cons_iff.mp hys with rfl | ⟨zs, rfl, hzs⟩
      · simp
      · have hf := h.front zs hzs
        rw [count, count]
        omega
    · have ht := h.total
      rw [count, count]
      omega

theorem nested_map {depth : Nat} (opens closes : β → Bool) (f : α → β) {xs : List α} :
    Nested opens closes depth (xs.map f) ↔
      Nested (fun x => opens (f x)) (fun x => closes (f x)) depth xs := by
  induction xs generalizing depth with
  | nil => simp [nested_nil]
  | cons x xs ih => simp only [List.map_cons, nested_cons, ih]

end Nesting

def Token.opens (t : Token) : Bool := t.kind = .leftParen

def Token.closes (t : Token) : Bool := t.kind = .rightParen

/-- The body of an invocation: its parentheses are balanced and the file does not end in it. -/
structure Enclosed (depth : Nat) (body : List Token) : Prop where
  nested : Nested Token.opens Token.closes depth body
  unended : ∀ t ∈ body, t.kind ≠ .endOfFile

/-- An invocation among tokens. -/
structure Call where
  name : String
  head : Token
  opener : Token
  body : List Token
  closer : Token
  head_kind : head.kind = .ident name
  opener_kind : opener.kind = .leftParen
  closer_kind : closer.kind = .rightParen
  enclosed : Enclosed 0 body

inductive Item where
  | lineEnd (t : Token) (kind : t.kind = .newline)
  | lineComment (t : Token) (text : String) (kind : t.kind = .lineComment text)
  | bracketComment (t : Token) (text : String) (kind : t.kind = .bracketComment text)
  | call (c : Call)

namespace Item

def tokens : Item → List Token
  | .lineEnd t _ | .lineComment t _ _ | .bracketComment t _ _ => [t]
  | .call c => c.head :: c.opener :: (c.body ++ [c.closer])

def endsLine : Item → Bool
  | .lineEnd .. => true
  | _ => false

/-- A comment or an invocation stands between these items' last line end and their end. -/
def lineStarted (before : List Item) : Bool :=
  !(before.reverse.takeWhile fun i => !i.endsLine).isEmpty

end Item

/-- The arguments that the tokens of a body spell, in order. -/
def bodyArguments (body : List Token) : List Argument := body.filterMap fun t => t.kind.argument?

def Call.invocation (c : Call) : Invocation :=
  ⟨c.name, bodyArguments c.body, c.head.span.join c.closer.span, c.head.line⟩

/-- What an item contributes behind the items `before`. A line end gives a blank line if nothing
else stands on its line. -/
def Item.node? (before : List Item) : Item → Option Node
  | .lineEnd t _ => if Item.lineStarted before then none else some (.blankLine t.line)
  | .lineComment t text _ => some (.comment ⟨.line, text, t.line⟩)
  | .bracketComment t text _ => some (.comment ⟨.bracket, text, t.line⟩)
  | .call c => some (.invocation c.invocation)

/-- The nodes of the items `items` that stand behind the items `before`. -/
def nodesBehind (before : List Item) : List Item → List Node
  | [] => []
  | i :: is => (i.node? before).toList ++ nodesBehind (before ++ [i]) is

/-- Nothing more is read from here on. -/
def EndsScript (rest : List Token) : Prop := ∀ t ∈ rest.head?, t.kind = .endOfFile

theorem enclosed_nil {depth : Nat} : Enclosed depth [] ↔ depth = 0 :=
  ⟨fun h => nested_nil.mp h.nested, fun h => ⟨nested_nil.mpr h, by simp⟩⟩

theorem enclosed_cons {depth : Nat} {t : Token} {ts : List Token} :
    Enclosed depth (t :: ts) ↔ t.kind ≠ .endOfFile ∧ t.closes.toNat ≤ t.opens.toNat + depth ∧
      Enclosed (t.opens.toNat + depth - t.closes.toNat) ts := by
  constructor
  · intro h
    obtain ⟨ht, hn⟩ := nested_cons.mp h.nested
    exact ⟨h.unended t (by simp), ht, hn, fun u hu => h.unended u (by simp [hu])⟩
  · rintro ⟨he, ht, h⟩
    constructor
    · exact nested_cons.mpr ⟨ht, h.nested⟩
    · intro u hu
      rcases List.mem_cons.mp hu with rfl | hu
      · exact he
      · exact h.unended u hu

/-- The arguments stand in front of those that are read later. -/
def ArgumentList.prepend (front : List Argument) (l : ArgumentList) : ArgumentList :=
  front.foldr ArgumentList.push l

@[simp] theorem ArgumentList.prepend_closed (front arguments : List Argument) (close : Token)
    (rest : List Token) :
    (ArgumentList.closed arguments close rest).prepend front =
      .closed (front ++ arguments) close rest := by
  induction front with
  | nil => rfl
  | cons a front ih =>
    rw [prepend, List.foldr_cons, ← prepend, ih]
    rfl

@[simp] theorem ArgumentList.prepend_unclosed (front : List Argument) (stop : Option Token)
    (rest : List Token) :
    (ArgumentList.unclosed stop rest).prepend front = .unclosed stop rest := by
  induction front with
  | nil => rfl
  | cons a front ih =>
    rw [prepend, List.foldr_cons, ← prepend, ih]
    rfl

theorem ArgumentList.of_prepend_closed {front arguments : List Argument} {close : Token}
    {rest : List Token} {l : ArgumentList} (h : l.prepend front = .closed arguments close rest) :
    ∃ others, l = .closed others close rest := by
  cases l with
  | closed others close' rest' =>
    rw [prepend_closed] at h
    simp only [closed.injEq] at h
    exact ⟨others, by rw [h.2.1, h.2.2]⟩
  | unclosed stop rest' =>
    rw [prepend_unclosed] at h
    cases h

/-- What one token does to the reading of a body: it ends the file, it ends the body, or it takes
part in the body and reading goes on at the depth behind it. -/
theorem argumentList_cons_cases (depth : Nat) (t : Token) (ts : List Token) :
    (t.kind = .endOfFile ∧ argumentList depth (t :: ts) = .unclosed (some t) ts) ∨
    (t.kind = .rightParen ∧ depth = 0 ∧ argumentList depth (t :: ts) = .closed [] t ts) ∨
    (t.kind ≠ .endOfFile ∧ t.closes.toNat ≤ t.opens.toNat + depth ∧
      argumentList depth (t :: ts) =
        (argumentList (t.opens.toNat + depth - t.closes.toNat) ts).prepend
          t.kind.argument?.toList) := by
  cases hk : t.kind with
  | endOfFile => exact .inl ⟨rfl, by simp [argumentList, hk]⟩
  | rightParen =>
    cases depth with
    | zero => exact .inr (.inl ⟨rfl, rfl, by simp [argumentList, hk]⟩)
    | succ depth =>
      refine .inr (.inr ⟨by simp, by simp [Token.closes, Token.opens, hk], ?_⟩)
      simp [argumentList, hk, Token.opens, Token.closes, TokenKind.argument?,
        ArgumentList.prepend]
  | leftParen =>
    refine .inr (.inr ⟨by simp, by simp [Token.closes, hk], ?_⟩)
    simp [argumentList, hk, Token.opens, Token.closes, TokenKind.argument?,
      ArgumentList.prepend, Nat.add_comm 1]
  | _ =>
    refine .inr (.inr ⟨by simp, by simp [Token.closes, hk], ?_⟩)
    simp [argumentList, hk, Token.opens, Token.closes, TokenKind.argument?,
      ArgumentList.prepend]

/-- A body is read to its closing parenthesis, whatever follows. -/
theorem argumentList_of_enclosed {depth : Nat} {body : List Token} (h : Enclosed depth body)
    {close : Token} (hc : close.kind = .rightParen) (rest : List Token) :
    argumentList depth (body ++ close :: rest) = .closed (bodyArguments body) close rest := by
  induction body generalizing depth with
  | nil =>
    obtain rfl := enclosed_nil.mp h
    simp [argumentList, hc, bodyArguments]
  | cons t ts ih =>
    obtain ⟨he, hd, ht⟩ := enclosed_cons.mp h
    rcases argumentList_cons_cases depth t (ts ++ close :: rest) with
      ⟨hk, -⟩ | ⟨hk, rfl, -⟩ | ⟨-, -, hr⟩
    · exact absurd hk he
    · simp [Token.closes, Token.opens, hk] at hd
    · rw [List.cons_append, hr, ih ht, ArgumentList.prepend_closed]
      congr 1
      cases ha : t.kind.argument? <;> simp [bodyArguments, ha]

/-- What is read as a body is one. -/
theorem enclosed_of_argumentList {depth : Nat} {ts : List Token} {arguments : List Argument}
    {close : Token} {rest : List Token}
    (h : argumentList depth ts = .closed arguments close rest) :
    ∃ body, ts = body ++ close :: rest ∧ close.kind = .rightParen ∧ Enclosed depth body := by
  induction ts generalizing depth arguments with
  | nil => simp [argumentList] at h
  | cons t ts ih =>
    rcases argumentList_cons_cases depth t ts with ⟨-, hr⟩ | ⟨hk, rfl, hr⟩ | ⟨he, hd, hr⟩
    · rw [hr] at h
      cases h
    · rw [hr] at h
      simp only [ArgumentList.closed.injEq] at h
      obtain ⟨-, rfl, rfl⟩ := h
      exact ⟨[], rfl, hk, enclosed_nil.mpr rfl⟩
    · rw [hr] at h
      obtain ⟨others, ho⟩ := ArgumentList.of_prepend_closed h
      obtain ⟨body, rfl, hc, hb⟩ := ih ho
      exact ⟨t :: body, rfl, hc, enclosed_cons.mpr ⟨he, hd, hb⟩⟩

@[simp] theorem Item.lineStarted_nil : Item.lineStarted [] = false := rfl

@[simp] theorem Item.lineStarted_append (before : List Item) (i : Item) :
    Item.lineStarted (before ++ [i]) = !i.endsLine := by
  cases h : i.endsLine <;> simp [lineStarted, h]

/-- One item is read as its node, and reading goes on behind it. -/
theorem readFrom_item (before : List Item) (i : Item) (rest : List Token) :
    readFrom (Item.lineStarted before) (i.tokens ++ rest) =
      let later := readFrom (Item.lineStarted (before ++ [i])) rest
      ⟨(i.node? before).toList ++ later.nodes, later.faults⟩ := by
  rw [Item.lineStarted_append]
  cases i with
  | lineEnd t hk =>
    cases hs : Item.lineStarted before <;>
      simp [Item.tokens, Item.node?, Item.endsLine, readFrom, hk, hs, Reading.withNode]
  | lineComment t text hk =>
    simp [Item.tokens, Item.node?, Item.endsLine, readFrom, hk, Reading.withNode]
  | bracketComment t text hk =>
    simp [Item.tokens, Item.node?, Item.endsLine, readFrom, hk, Reading.withNode]
  | call c =>
    have hb := argumentList_of_enclosed c.enclosed c.closer_kind rest
    simp [Item.tokens, Item.node?, Item.endsLine, readFrom, statement, c.head_kind,
      c.opener_kind, hb, Reading.withNode, Call.invocation]

theorem readFrom_of_endsScript {rest : List Token} (h : EndsScript rest) (started : Bool) :
    readFrom started rest = ⟨[], []⟩ := by
  cases rest with
  | nil => simp [readFrom]
  | cons t ts => simp [readFrom, h t (by simp)]

/-- A row of items is read without a fault. -/
theorem readFrom_items (before items : List Item) {rest : List Token} (h : EndsScript rest) :
    readFrom (Item.lineStarted before) (items.flatMap Item.tokens ++ rest) =
      ⟨nodesBehind before items, []⟩ := by
  induction items generalizing before with
  | nil => exact readFrom_of_endsScript h _
  | cons i items ih =>
    rw [List.flatMap_cons, List.append_assoc, readFrom_item, ih]
    rfl

/-- The tokens are a row of items up to where reading ends. -/
def IsRow (ts : List Token) : Prop :=
  ∃ (items : List Item) (rest : List Token),
    ts = items.flatMap Item.tokens ++ rest ∧ EndsScript rest

theorem IsRow.cons (i : Item) {ts : List Token} (h : IsRow ts) : IsRow (i.tokens ++ ts) := by
  obtain ⟨items, rest, rfl, hr⟩ := h
  exact ⟨i :: items, rest, by simp, hr⟩

/-- A statement without a fault is an invocation. -/
theorem call_of_statement {name : String} {t : Token} (hk : t.kind = .ident name)
    {ts : List Token} {command : Invocation} (h : (statement name t ts).1 = .ok command) :
    ∃ c : Call, t :: ts = (Item.call c).tokens ++ (statement name t ts).2 := by
  cases ts with
  | nil => simp [statement] at h
  | cons paren ts =>
    by_cases hp : paren.kind = .leftParen
    · cases hl : argumentList 0 ts with
      | closed arguments close rest =>
        obtain ⟨body, rfl, hc, hb⟩ := enclosed_of_argumentList hl
        refine ⟨⟨name, t, paren, body, close, hk, hp, hc, hb⟩, ?_⟩
        simp [statement, hp, hl, Item.tokens]
      | unclosed stop rest => simp [statement, hp, hl] at h
    · simp [statement, hp] at h

/-- What is read without a fault is a row of items. -/
theorem isRow_of_readFrom {started : Bool} {ts : List Token}
    (h : (readFrom started ts).faults = []) : IsRow ts := by
  fun_induction readFrom started ts with
  | case1 => exact ⟨[], [], rfl, by simp [EndsScript]⟩
  | case2 _ t ts hk => exact ⟨[], t :: ts, rfl, by simpa [EndsScript] using hk⟩
  | case3 t ts hk ih => exact (ih h).cons (.lineEnd t hk)
  | case4 _ t ts hk _ ih => exact (ih h).cons (.lineEnd t hk)
  | case5 _ t ts text hk ih => exact (ih h).cons (.lineComment t text hk)
  | case6 _ t ts text hk ih => exact (ih h).cons (.bracketComment t text hk)
  | case7 _ t ts name hk read command hr ih =>
    obtain ⟨c, hc⟩ := call_of_statement hk hr
    rw [hc]
    exact (ih h).cons (.call c)
  | case8 => simp [Reading.withFault] at h
  | case9 => simp [Reading.withFault] at h

theorem parse_eq_ok {ts : List Token} {nodes : List Node} :
    parse ts = .ok nodes ↔ readFrom false ts = ⟨nodes, []⟩ := by
  unfold parse
  cases hr : readFrom false ts with
  | mk found faults => cases faults <;> simp

/-- Tokens are read without a fault exactly if they are a row of items, and the nodes are then
those of the items. -/
theorem parse_eq_ok_iff_items (ts : List Token) (nodes : List Node) :
    parse ts = .ok nodes ↔
      ∃ (items : List Item) (rest : List Token),
        ts = items.flatMap Item.tokens ++ rest ∧ EndsScript rest ∧
          nodes = nodesBehind [] items := by
  rw [parse_eq_ok]
  constructor
  · intro h
    have hf : (readFrom false ts).faults = [] := by rw [h]
    obtain ⟨items, rest, rfl, hr⟩ := isRow_of_readFrom hf
    have hi := readFrom_items [] items hr
    rw [Item.lineStarted_nil, h] at hi
    exact ⟨items, rest, rfl, hr, congrArg Reading.nodes hi⟩
  · rintro ⟨items, rest, rfl, hr, rfl⟩
    exact readFrom_items [] items hr

end CMakeManual.Script
