import CMakeManual.Proofs.Script.FaultOrder

/-! Scanner and reader agree on nesting. Here the reader takes its tokens step by step and keeps a
count of its own, which starts at one with every invocation. Over the tokens of a script that count
is always the number of parentheses that the scanner has open, whatever stray parentheses and faulty
lines stood before. So an invocation takes neither names nor line ends, and no argument stands
where a statement could start. -/
namespace CMakeManual.Script

/-- An invocation whose arguments are being read. `depth` counts its open parentheses, the first one
included. -/
structure OpenCall where
  name : String
  head : Token
  depth : Nat
  arguments : List Argument
  unclosed : 0 < depth

/-- A reader between two steps: the tokens before it, whether the line holds anything yet, the
invocation it is in, and what it has read. -/
structure Reader where
  rest : List Token
  started : Bool
  call? : Option OpenCall
  nodes : List Node
  faults : List Fault

/-- The invocation behind a token that does not end the file. There is none behind the parenthesis
that closes it. -/
def OpenCall.take (c : OpenCall) (t : Token) : Option OpenCall :=
  match t.kind with
  | .leftParen =>
      some { c with
        depth := c.depth + 1
        arguments := c.arguments ++ [⟨.unquoted, "("⟩]
        unclosed := Nat.succ_pos c.depth }
  | .rightParen =>
      if h : c.depth - 1 = 0 then none
      else
        some { c with
          depth := c.depth - 1
          arguments := c.arguments ++ [⟨.unquoted, ")"⟩]
          unclosed := Nat.pos_of_ne_zero h }
  | kind => some { c with arguments := c.arguments ++ kind.argument?.toList }

namespace Reader

def start (tokens : List Token) : Reader := ⟨tokens, false, none, [], []⟩

/-- A node has been read up to `rest`. -/
def give (r : Reader) (n : Node) (rest : List Token) : Reader :=
  { r with rest, started := true, call? := none, nodes := r.nodes ++ [n] }

/-- A statement is given up at the next line end in `rest`. -/
def giveUp (r : Reader) (f : Fault) (rest : List Token) : Reader :=
  { r with rest := nextLine rest, started := true, call? := none, faults := r.faults ++ [f] }

def endLine (r : Reader) (line : Nat) (rest : List Token) : Reader :=
  { r with
    rest
    started := false
    nodes := if r.started then r.nodes else r.nodes ++ [.blankLine line] }

/-- The step at the name `t` of a command, if `rest` follows it. -/
def enterCall (r : Reader) (name : String) (t : Token) (rest : List Token) : Reader :=
  match rest with
  | paren :: ts =>
      if paren.kind = .leftParen then
        { r with rest := ts, started := true, call? := some ⟨name, t, 1, [], Nat.one_pos⟩ }
      else r.giveUp ⟨.missingOpenParen name, t.span, t.line⟩ rest
  | [] => r.giveUp ⟨.missingOpenParen name, t.span, t.line⟩ rest

/-- The step between statements. -/
def atStatement (r : Reader) (t : Token) (ts : List Token) : Option Reader :=
  match t.kind with
  | .endOfFile => none
  | .newline => some (r.endLine t.line ts)
  | .lineComment text => some (r.give (.comment ⟨.line, text, t.line⟩) ts)
  | .bracketComment text => some (r.give (.comment ⟨.bracket, text, t.line⟩) ts)
  | .ident name => some (r.enterCall name t ts)
  | found => some (r.giveUp ⟨.unexpectedToken found, t.span, t.line⟩ ts)

/-- The step inside an invocation. -/
def inCall (r : Reader) (c : OpenCall) (t : Token) (ts : List Token) : Reader :=
  if t.kind = .endOfFile then
    r.giveUp ⟨.unterminatedInvocation c.name, c.head.span.join t.span, c.head.line⟩ ts
  else
    match c.take t with
    | some inner => { r with rest := ts, call? := some inner }
    | none =>
        r.give (.invocation ⟨c.name, c.arguments, c.head.span.join t.span, c.head.line⟩) ts

/-- One step. The reader stops at the end of the file or of the tokens. -/
def step (r : Reader) : Option Reader :=
  match r.call?, r.rest with
  | none, [] => none
  | none, t :: ts => r.atStatement t ts
  | some c, [] =>
      some (r.giveUp ⟨.unterminatedInvocation c.name, c.head.span, c.head.line⟩ [])
  | some c, t :: ts => some (r.inCall c t ts)

end Reader

/-- The states of a reader on its way through `tokens`. -/
inductive Visited (tokens : List Token) : Reader → Prop where
  | start : Visited tokens (.start tokens)
  | step {r s : Reader} (h : Visited tokens r) (hs : r.step = some s) : Visited tokens s

theorem OpenCall.take_eq_none {c : OpenCall} {t : Token} (h : c.take t = none) :
    t.kind = .rightParen ∧ c.depth = 1 := by
  have hpos := c.unclosed
  unfold take at h
  split at h
  · simp at h
  next hk =>
    split at h
    next hd => exact ⟨hk, by omega⟩
    next => simp at h
  · simp at h

/-- The count behind a token is that of the scanner, and the argument that the token is, if any, is
the last one read. -/
theorem OpenCall.take_eq_some {c inner : OpenCall} {t : Token} (h : c.take t = some inner) :
    inner.name = c.name ∧ inner.head = c.head ∧ inner.depth = t.kind.depthAfter c.depth ∧
      inner.arguments = c.arguments ++ t.kind.argument?.toList ∧
      (t.kind = .rightParen → c.depth ≠ 1) := by
  unfold take at h
  split at h
  next hk =>
    obtain rfl := Option.some.inj h
    rw [hk]
    exact ⟨rfl, rfl, rfl, rfl, by simp⟩
  next hk =>
    split at h
    next => simp at h
    next hd =>
      obtain rfl := Option.some.inj h
      rw [hk]
      exact ⟨rfl, rfl, rfl, rfl, fun _ => by omega⟩
  next kind hl hr =>
    obtain rfl := Option.some.inj h
    refine ⟨rfl, rfl, ?_, rfl, fun hk => absurd hk hr⟩
    cases hk : t.kind with
    | leftParen => exact absurd hk hl
    | rightParen => exact absurd hk hr
    | _ => rfl

/-- What is read from inside an invocation on. -/
def OpenCall.reading (c : OpenCall) (rest : List Token) : Reading :=
  match argumentList (c.depth - 1) rest with
  | .closed arguments close behind =>
      (readFrom true behind).withNode
        (.invocation ⟨c.name, c.arguments ++ arguments, c.head.span.join close.span, c.head.line⟩)
  | .unclosed stop behind =>
      let span := (stop.map fun s => c.head.span.join s.span).getD c.head.span
      (readFrom true (nextLine behind)).withFault
        ⟨.unterminatedInvocation c.name, span, c.head.line⟩

/-- What a reader has read and what it will. -/
def Reader.reading (r : Reader) : Reading :=
  Reading.append ⟨r.nodes, r.faults⟩
    (match r.call? with
    | none => readFrom r.started r.rest
    | some c => c.reading r.rest)

namespace Reader

theorem reading_give (r : Reader) (n : Node) (rest : List Token) :
    (r.give n rest).reading =
      Reading.append ⟨r.nodes, r.faults⟩ ((readFrom true rest).withNode n) := by
  simp [reading, give, Reading.append, Reading.withNode]

theorem reading_giveUp (r : Reader) (f : Fault) (rest : List Token) :
    (r.giveUp f rest).reading =
      Reading.append ⟨r.nodes, r.faults⟩ ((readFrom true (nextLine rest)).withFault f) := by
  simp [reading, giveUp, Reading.append, Reading.withFault]

theorem reading_endLine {r : Reader} {t : Token} (hc : r.call? = none) (hk : t.kind = .newline)
    (ts : List Token) :
    (r.endLine t.line ts).reading =
      Reading.append ⟨r.nodes, r.faults⟩ (readFrom r.started (t :: ts)) := by
  cases hs : r.started <;>
    simp [reading, endLine, hc, hs, hk, readFrom, Reading.append, Reading.withNode]

theorem readFrom_ok {started : Bool} {name : String} {t : Token} (hk : t.kind = .ident name)
    {ts rest : List Token} {command : Invocation}
    (h : statement name t ts = (.ok command, rest)) :
    readFrom started (t :: ts) = (readFrom true rest).withNode (.invocation command) := by
  simp [readFrom, hk, h]

theorem readFrom_error {started : Bool} {name : String} {t : Token} (hk : t.kind = .ident name)
    {ts rest : List Token} {f : Fault} (h : statement name t ts = (.error f, rest)) :
    readFrom started (t :: ts) = (readFrom true rest).withFault f := by
  simp [readFrom, hk, h]

theorem reading_enterCall {r : Reader} {name : String} {t : Token} (hk : t.kind = .ident name)
    (ts : List Token) :
    (r.enterCall name t ts).reading =
      Reading.append ⟨r.nodes, r.faults⟩ (readFrom r.started (t :: ts)) := by
  cases ts with
  | nil =>
    have hs : statement name t [] = (.error ⟨.missingOpenParen name, t.span, t.line⟩, []) := rfl
    rw [readFrom_error hk hs, enterCall, reading_giveUp]
    rfl
  | cons paren ts =>
    by_cases hp : paren.kind = .leftParen
    · rw [enterCall, if_pos hp]
      cases hl : argumentList 0 ts with
      | closed arguments close rest =>
        have hs : statement name t (paren :: ts) =
            (.ok ⟨name, arguments, t.span.join close.span, t.line⟩, rest) := by
          simp [statement, hp, hl]
        rw [readFrom_ok hk hs]
        simp [reading, OpenCall.reading, hl]
      | unclosed stop rest =>
        have hs : statement name t (paren :: ts) =
            (.error ⟨.unterminatedInvocation name,
              (stop.map fun s => t.span.join s.span).getD t.span, t.line⟩, nextLine rest) := by
          simp [statement, hp, hl]
        rw [readFrom_error hk hs]
        simp [reading, OpenCall.reading, hl]
    · have hs : statement name t (paren :: ts) =
          (.error ⟨.missingOpenParen name, t.span, t.line⟩, nextLine (paren :: ts)) := by
        simp [statement, hp]
      rw [enterCall, if_neg hp, reading_giveUp, readFrom_error hk hs]

theorem reading_atStatement {r s : Reader} {t : Token} {ts : List Token} (hc : r.call? = none)
    (h : r.atStatement t ts = some s) :
    s.reading = Reading.append ⟨r.nodes, r.faults⟩ (readFrom r.started (t :: ts)) := by
  unfold atStatement at h
  split at h
  · simp at h
  next hk =>
    obtain rfl := Option.some.inj h
    exact reading_endLine hc hk ts
  next text hk =>
    obtain rfl := Option.some.inj h
    rw [reading_give, readFrom, hk]
  next text hk =>
    obtain rfl := Option.some.inj h
    rw [reading_give, readFrom, hk]
  next name hk =>
    obtain rfl := Option.some.inj h
    exact reading_enterCall hk ts
  next he hn hl hb hi =>
    obtain rfl := Option.some.inj h
    rw [reading_giveUp, readFrom_unexpected he hn hl hb hi]

end Reader

/-- A token that the invocation goes on behind is passed over by `argumentList`. -/
theorem OpenCall.reading_take {c inner : OpenCall} {t : Token} (he : t.kind ≠ .endOfFile)
    (h : c.take t = some inner) (ts : List Token) : inner.reading ts = c.reading (t :: ts) := by
  obtain ⟨hname, hhead, hdepth, harguments, hclose⟩ := take_eq_some h
  have hpos := c.unclosed
  obtain ⟨k, hk⟩ : ∃ k, c.depth = k + 1 := ⟨c.depth - 1, by omega⟩
  have hnext : t.kind.depthAfter (k + 1) = t.opens.toNat + k - t.closes.toNat + 1 :=
    (Token.depthAfter_succ fun hr hz => hclose hr (by omega)).2
  rcases argumentList_cons_cases k t ts with ⟨hend, -⟩ | ⟨hr, hz, -⟩ | ⟨-, -, hr⟩
  · exact absurd hend he
  · exact absurd (by omega) (hclose hr)
  · rw [hk, hnext] at hdepth
    simp only [reading, hdepth, hk, Nat.add_sub_cancel, hr, hname, hhead, harguments]
    cases argumentList (t.opens.toNat + k - t.closes.toNat) ts <;> simp

namespace Reader

theorem reading_inCall (r : Reader) (c : OpenCall) (t : Token) (ts : List Token) :
    (r.inCall c t ts).reading =
      Reading.append ⟨r.nodes, r.faults⟩ (c.reading (t :: ts)) := by
  unfold inCall
  split
  next he =>
    rw [reading_giveUp]
    simp [OpenCall.reading, argumentList, he]
  next he =>
    split
    next inner h =>
      rw [← c.reading_take he h]
      rfl
    next h =>
      obtain ⟨hk, hd⟩ := OpenCall.take_eq_none h
      rw [reading_give]
      simp [OpenCall.reading, argumentList, hk, hd]

/-- A step changes nothing of what is read in the end. -/
theorem reading_step {r s : Reader} (h : r.step = some s) : s.reading = r.reading := by
  unfold step at h
  split at h
  · simp at h
  next t ts hc hr =>
    rw [reading_atStatement hc h]
    simp only [reading, hc, hr]
  next c hc hr =>
    obtain rfl := Option.some.inj h
    rw [reading_giveUp]
    simp [reading, hc, hr, OpenCall.reading, argumentList]
  next c t ts hc hr =>
    obtain rfl := Option.some.inj h
    rw [reading_inCall]
    simp only [reading, hc, hr]

/-- A reader that stops has read everything. -/
theorem reading_of_stop {r : Reader} (h : r.step = none) : r.reading = ⟨r.nodes, r.faults⟩ := by
  unfold step at h
  split at h
  next hc hr => simp [reading, hc, hr, readFrom, Reading.append]
  next t ts hc hr =>
    have hk : t.kind = .endOfFile := by
      unfold atStatement at h
      split at h <;> simp_all
    simp [reading, hc, hr, readFrom, hk, Reading.append]
  · simp at h
  · simp at h

/-- No fewer than the steps that a reader can still take. -/
def stepsLeft (r : Reader) : Nat := 2 * r.rest.length + r.call?.isSome.toNat

theorem stepsLeft_giveUp (r : Reader) (f : Fault) (rest : List Token) :
    (r.giveUp f rest).stepsLeft ≤ 2 * rest.length := by
  have := nextLine_length rest
  simp only [stepsLeft, giveUp, Option.isSome_none, Bool.toNat_false]
  omega

theorem stepsLeft_enterCall (r : Reader) (name : String) (t : Token) (ts : List Token) :
    (r.enterCall name t ts).stepsLeft ≤ 2 * ts.length := by
  unfold enterCall
  split
  next paren ts =>
    split
    · simp only [stepsLeft, Option.isSome_some, Bool.toNat_true, List.length_cons]
      omega
    · exact stepsLeft_giveUp r _ _
  next => exact stepsLeft_giveUp r _ _

theorem stepsLeft_step {r s : Reader} (h : r.step = some s) : s.stepsLeft < r.stepsLeft := by
  have hrest {n : Nat} (t : Token) (ts : List Token) (hr : r.rest = t :: ts)
      (hs : n ≤ 2 * ts.length + 1) : n < r.stepsLeft := by
    simp only [stepsLeft, hr, List.length_cons]
    omega
  unfold step at h
  split at h
  · simp at h
  next t ts hc hr =>
    apply hrest t ts hr
    unfold atStatement at h
    split at h
    · simp at h
    · obtain rfl := Option.some.inj h
      simp [stepsLeft, endLine, hc]
    · obtain rfl := Option.some.inj h
      simp [stepsLeft, give]
    · obtain rfl := Option.some.inj h
      simp [stepsLeft, give]
    · obtain rfl := Option.some.inj h
      exact Nat.le_succ_of_le (stepsLeft_enterCall r _ t ts)
    · obtain rfl := Option.some.inj h
      exact Nat.le_succ_of_le (stepsLeft_giveUp r _ ts)
  next c hc hr =>
    obtain rfl := Option.some.inj h
    simp [stepsLeft, giveUp, nextLine, hc, hr]
  next c t ts hc hr =>
    obtain rfl := Option.some.inj h
    apply hrest t ts hr
    unfold inCall
    split
    · exact Nat.le_succ_of_le (stepsLeft_giveUp r _ ts)
    · split
      · simp [stepsLeft]
      · simp [stepsLeft, give]

end Reader

/-- From every state a reader comes to a stop. -/
theorem Visited.stops {tokens : List Token} {r : Reader} (h : Visited tokens r) :
    ∃ last, Visited tokens last ∧ last.step = none ∧ last.reading = r.reading := by
  induction hn : r.stepsLeft using Nat.strongRecOn generalizing r with
  | _ n ih =>
    cases hs : r.step with
    | none => exact ⟨r, h, hs, rfl⟩
    | some s =>
      obtain ⟨last, hv, hstop, hread⟩ := ih _ (hn ▸ Reader.stepsLeft_step hs) (h.step hs) rfl
      exact ⟨last, hv, hstop, hread.trans (Reader.reading_step hs)⟩

/-- Step by step a reader reads what `parse` reads. -/
theorem visited_parse (tokens : List Token) :
    ∃ last, Visited tokens last ∧ last.step = none ∧
      parse tokens = if last.faults = [] then .ok last.nodes else .error last.faults := by
  obtain ⟨last, hv, hstop, hread⟩ := (Visited.start : Visited tokens _).stops
  refine ⟨last, hv, hstop, ?_⟩
  have hall : readFrom false tokens = ⟨last.nodes, last.faults⟩ := by
    rw [← Reader.reading_of_stop hstop, hread]
    simp [Reader.reading, Reader.start, Reading.append]
  simp only [parse, hall]
  cases last.faults <;> rfl

/-- Where a reader stands among the tokens of a script: outside parentheses if it looks for a
statement, unless it has come to the end, and inside as many as it counts in an invocation. -/
structure Reader.KeepsStep (tokens : List Token) (r : Reader) (front : List Token) : Prop where
  split : tokens = front ++ r.rest
  outside : r.call? = none → EndsScript r.rest ∨ tokenDepth 0 front = 0 ∧ InStep 0 r.rest
  inside : ∀ c, r.call? = some c → c.depth = tokenDepth 0 front ∧ InStep c.depth r.rest

theorem tokenDepth_singleton (depth : Nat) (t : Token) :
    tokenDepth depth [t] = t.kind.depthAfter depth := rfl

namespace Reader.KeepsStep
variable {tokens front : List Token} {r : Reader}

/-- A reader that goes on behind the tokens `taken`, outside parentheses. -/
theorem goesOn (taken : List Token) {rest : List Token} {s : Reader}
    (h : r.KeepsStep tokens front) (hr : r.rest = taken ++ rest) (hs : s.rest = rest)
    (hc : s.call? = none) (hd : tokenDepth (tokenDepth 0 front) taken = 0) (hin : InStep 0 rest) :
    s.KeepsStep tokens (front ++ taken) where
  split := by rw [h.split, hr, hs, List.append_assoc]
  outside := by
    intro _
    right
    rw [tokenDepth_append, hs]
    exact ⟨hd, hin⟩
  inside := by simp [hc]

/-- A statement is given up at a line end outside parentheses or at the end of the file. -/
theorem givesUp (taken : List Token) {rest : List Token} (h : r.KeepsStep tokens front)
    (hr : r.rest = taken ++ rest) (f : Fault)
    (hin : InStep (tokenDepth (tokenDepth 0 front) taken) rest) :
    ∃ behind, (r.giveUp f rest).KeepsStep tokens behind := by
  rcases hin.nextLine_cases with ⟨last, hn, hk⟩ | ⟨skipped, n, behind, hs, hn, -, hd, hin⟩
  · obtain ⟨skipped, hsuffix⟩ := nextLine_suffix rest
    refine ⟨front ++ taken ++ skipped, ?_, ?_, by simp [giveUp]⟩
    · show tokens = front ++ taken ++ skipped ++ nextLine rest
      rw [h.split, hr, List.append_assoc, List.append_assoc, hsuffix]
    · intro _
      left
      simp [giveUp, hn, EndsScript, hk]
  · refine ⟨front ++ taken ++ skipped, ?_, ?_, by simp [giveUp]⟩
    · show tokens = front ++ taken ++ skipped ++ nextLine rest
      rw [h.split, hr, hn, List.append_assoc, List.append_assoc, ← hs]
    · intro _
      right
      rw [tokenDepth_append, tokenDepth_append, hd, giveUp, hn]
      exact ⟨rfl, hin⟩

theorem atStatement {s : Reader} {t : Token} {ts : List Token} (h : r.KeepsStep tokens front)
    (hc : r.call? = none) (hr : r.rest = t :: ts) (hs : r.atStatement t ts = some s) :
    ∃ behind, s.KeepsStep tokens behind := by
  have he : t.kind ≠ .endOfFile := by
    intro hk
    simp [Reader.atStatement, hk] at hs
  obtain ⟨hd, hin⟩ : tokenDepth 0 front = 0 ∧ InStep 0 (t :: ts) := by
    rcases h.outside hc with hend | hout
    · exact absurd (hend t (by simp [hr])) he
    · rwa [hr] at hout
  have htail := (hin.tail he).2
  have hplain {s : Reader} (hk : t.kind.depthAfter 0 = 0) (hrest : s.rest = ts)
      (hcall : s.call? = none) : ∃ behind, s.KeepsStep tokens behind := by
    rw [hk] at htail
    exact ⟨front ++ [t], h.goesOn [t] hr hrest hcall (by rw [hd]; exact hk) htail⟩
  have hgivenUp (f : Fault) : ∃ behind, (r.giveUp f ts).KeepsStep tokens behind := by
    apply h.givesUp [t] hr f
    rw [hd]
    exact htail
  unfold Reader.atStatement at hs
  split at hs
  · simp at hs
  next hk =>
    obtain rfl := Option.some.inj hs
    exact hplain (by rw [hk]; rfl) rfl hc
  next text hk =>
    obtain rfl := Option.some.inj hs
    exact hplain (by rw [hk]; rfl) rfl rfl
  next text hk =>
    obtain rfl := Option.some.inj hs
    exact hplain (by rw [hk]; rfl) rfl rfl
  next name hk =>
    obtain rfl := Option.some.inj hs
    unfold enterCall
    split
    next paren ts =>
      split
      next hp =>
        -- The count starts at one, and so many parentheses are open behind this one.
        rw [hk] at htail
        have hbody := (htail.tail (by simp [hp])).2
        rw [hp] at hbody
        refine ⟨front ++ [t, paren], ?_, by simp, ?_⟩
        · rw [h.split, hr, List.append_assoc]
          rfl
        · rintro c ⟨⟩
          have hone : tokenDepth 0 [t, paren] = 1 := by
            show paren.kind.depthAfter (t.kind.depthAfter 0) = 1
            rw [hk, hp]
            rfl
          rw [tokenDepth_append, hd, hone]
          exact ⟨rfl, hbody⟩
      next => exact hgivenUp _
    next => exact hgivenUp _
  next =>
    obtain rfl := Option.some.inj hs
    exact hgivenUp _

theorem inCall {c : OpenCall} {t : Token} {ts : List Token} (h : r.KeepsStep tokens front)
    (hc : r.call? = some c) (hr : r.rest = t :: ts) :
    ∃ behind, (r.inCall c t ts).KeepsStep tokens behind := by
  obtain ⟨hd, hin⟩ := h.inside c hc
  rw [hr] at hin
  refine ⟨front ++ [t], ?_⟩
  have hsplit : tokens = front ++ [t] ++ ts := by rw [h.split, hr, List.append_assoc]; rfl
  unfold Reader.inCall
  split
  next he =>
    -- Nothing stands behind the end of the file.
    obtain rfl : ts = [] := by
      cases hin with
      | ends => rfl
      | goesOn hne => exact absurd he hne
    exact ⟨hsplit, fun _ => .inl (by simp [giveUp, nextLine, EndsScript]), by simp [giveUp]⟩
  next he =>
    have htail := (hin.tail he).2
    split
    next inner ht =>
      obtain ⟨-, -, hdepth, -, -⟩ := OpenCall.take_eq_some ht
      refine ⟨hsplit, by simp, ?_⟩
      rintro c' ⟨⟩
      rw [tokenDepth_append, ← hd, hdepth]
      exact ⟨rfl, htail⟩
    next ht =>
      obtain ⟨hk, hone⟩ := OpenCall.take_eq_none ht
      rw [hk, hone] at htail
      refine h.goesOn [t] hr rfl rfl ?_ htail
      rw [← hd, hone, tokenDepth_singleton, hk]
      rfl

/-- The step. -/
theorem step {s : Reader} (h : r.KeepsStep tokens front) (hs : r.step = some s) :
    ∃ behind, s.KeepsStep tokens behind := by
  unfold Reader.step at hs
  split at hs
  · simp at hs
  next t ts hc hr => exact h.atStatement hc hr hs
  next c hc hr =>
    have hin := (h.inside c hc).2
    rw [hr] at hin
    exact absurd rfl hin.ne_nil
  next c t ts hc hr =>
    obtain rfl := Option.some.inj hs
    exact h.inCall hc hr

end Reader.KeepsStep

/-- The run: a reader of a script's tokens is in step with the scanner all the way. -/
theorem Visited.keepsStep {source : String} {tokens : List Token} (hs : scan source = .ok tokens)
    {r : Reader} (h : Visited tokens r) : ∃ front, r.KeepsStep tokens front := by
  induction h with
  | start =>
    have hin := inStep_of_scan hs
    exact ⟨[], rfl, fun _ => .inr ⟨rfl, hin⟩, by simp [Reader.start]⟩
  | step _ hstep ih =>
    obtain ⟨front, hr⟩ := ih
    exact hr.step hstep

/-- The argument tokens of a script. -/
def TokenKind.isArgument : TokenKind → Bool
  | .unquoted _ | .quoted _ | .bracket _ => true
  | _ => false

/-- Tokens on whose nesting scanner and reader agree. -/
structure NestingAgrees (tokens : List Token) : Prop where
  /-- Names and line ends stand outside parentheses, arguments inside. -/
  fits : ∀ front t rest, tokens = front ++ t :: rest → t.kind.FitsAt (tokenDepth 0 front)
  /-- Wherever the reader is in an invocation, it counts the parentheses that are open there. -/
  counts : ∀ r c, Visited tokens r → r.call? = some c →
    ∃ front, tokens = front ++ r.rest ∧ c.depth = tokenDepth 0 front
  /-- An invocation takes neither a name nor a line end. -/
  taken : ∀ r c t rest, Visited tokens r → r.call? = some c → r.rest = t :: rest →
    (∀ name, t.kind ≠ .ident name) ∧ t.kind ≠ .newline
  /-- No argument stands where the reader looks for a statement. -/
  statements : ∀ r t rest, Visited tokens r → r.call? = none → r.rest = t :: rest →
    t.kind.isArgument = false
  /-- So none is reported as a token that starts no statement. -/
  reported : ∀ f ∈ faultsOf (parse tokens), ∀ found, f.cause = .unexpectedToken found →
    found.isArgument = false
  /-- The reader comes to its end, and has then read what `parse` gives. -/
  ends : ∃ last, Visited tokens last ∧ last.step = none ∧
    parse tokens = if last.faults = [] then .ok last.nodes else .error last.faults

/-- Scanner and reader agree on the nesting of every script. -/
theorem scan_nestingAgrees {source : String} {tokens : List Token}
    (h : scan source = .ok tokens) : NestingAgrees tokens where
  fits := by
    rintro front t rest rfl
    exact InStep.fits front (inStep_of_scan h)
  counts := by
    intro r c hv hc
    obtain ⟨front, hr⟩ := hv.keepsStep h
    exact ⟨front, hr.split, (hr.inside c hc).1⟩
  taken := by
    intro r c t rest hv hc hrest
    obtain ⟨front, hr⟩ := hv.keepsStep h
    have hin := (hr.inside c hc).2
    rw [hrest] at hin
    have hfits : t.kind.FitsAt c.depth := InStep.fits [] hin
    have hpos := c.unclosed
    constructor
    · intro name hk
      rw [hk] at hfits
      exact absurd hfits (Nat.ne_of_gt hpos)
    · intro hk
      rw [hk] at hfits
      exact absurd hfits (Nat.ne_of_gt hpos)
  statements := by
    intro r t rest hv hc hrest
    obtain ⟨front, hr⟩ := hv.keepsStep h
    rcases hr.outside hc with hend | ⟨-, hin⟩
    · rw [hend t (by simp [hrest])]
      rfl
    · rw [hrest] at hin
      have hfits : t.kind.FitsAt 0 := InStep.fits [] hin
      cases hk : t.kind <;> simp_all [TokenKind.FitsAt, TokenKind.isArgument]
  reported := by
    intro f hf found hc
    rw [faultsOf_parse] at hf
    have hreports : Reports tokens (readFrom false tokens).faults :=
      readFrom_reports (inStep_of_scan h)
    rcases (hreports.unexpected hf hc).1 with rfl | rfl
    · rfl
    · rfl
  ends := visited_parse tokens

/-- A parenthesis that closes nothing, a line that starts with one, and a command over two lines. -/
def straySource : String := ")\n(x)\nif((a)\n\x22b\x22)"

def strayTokens : List Token :=
  [⟨.rightParen, ⟨0, 1⟩, 1⟩, ⟨.newline, ⟨1, 2⟩, 1⟩, ⟨.leftParen, ⟨2, 3⟩, 2⟩,
    ⟨.unquoted "x", ⟨3, 4⟩, 2⟩, ⟨.rightParen, ⟨4, 5⟩, 2⟩, ⟨.newline, ⟨5, 6⟩, 2⟩,
    ⟨.ident "if", ⟨6, 8⟩, 3⟩, ⟨.leftParen, ⟨8, 9⟩, 3⟩, ⟨.leftParen, ⟨9, 10⟩, 3⟩,
    ⟨.unquoted "a", ⟨10, 11⟩, 3⟩, ⟨.rightParen, ⟨11, 12⟩, 3⟩, ⟨.quoted "\x22b\x22", ⟨13, 16⟩, 4⟩,
    ⟨.rightParen, ⟨16, 17⟩, 4⟩, ⟨.endOfFile, ⟨17, 17⟩, 4⟩]

/-- Behind its second parenthesis the reader of the command counts two, as the scanner does. -/
theorem scan_nestingAgrees_stray :
    scan straySource = .ok strayTokens ∧ NestingAgrees strayTokens ∧
    ∃ r c, Visited strayTokens r ∧ r.call? = some c ∧ r.rest = strayTokens.drop 9 ∧
      c.depth = 2 ∧ tokenDepth 0 (strayTokens.take 9) = 2 := by
  have h : scan straySource = .ok strayTokens := by decide +kernel
  have hfirst : Visited strayTokens _ := (Visited.start.step rfl).step rfl
  have hsecond : Visited strayTokens _ := (hfirst.step rfl).step rfl
  have hinside : Visited strayTokens _ := (hsecond.step rfl).step rfl
  exact ⟨h, scan_nestingAgrees h, _, _, hinside, rfl, rfl, rfl, rfl⟩

end CMakeManual.Script
