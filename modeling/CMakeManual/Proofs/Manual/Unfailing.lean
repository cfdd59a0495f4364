import CMakeManual.Document.Markdown
import CMakeManual.Manual.Analysis
import CMakeManual.Proofs.Manual.Slots
import CMakeManual.Proofs.Script.Cursor
import CMakeManual.Proofs.Text.Bytes

/-! From a script to its page with every slice, index and count checked. Where a check fails there
is no answer. No check ever fails: for every script the answer is the page of its callables or the
faults of the script, and for any nodes the page of their callables. -/
namespace CMakeManual.Manual
open Text Script Vocabulary

def utf8Bytes (cs : List Char) : List UInt8 := cs.flatMap String.utf8EncodeChar

/-- Removes one layer of matching quotes. The first and the last byte are compared, and what lies
between them is cut out. -/
def unquoteChecked (cs : List Char) : Option (List Char) :=
  let bytes := utf8Bytes cs
  if (bytes.head? = some 0x22 ∨ bytes.head? = some 0x27) ∧ 2 ≤ bytes.length ∧
      bytes.head? = bytes.getLast? then
    slice? cs 1 (bytes.length - 1)
  else some cs

theorem length_utf8Bytes (cs : List Char) : (utf8Bytes cs).length = byteLength cs := by
  induction cs with
  | nil => rfl
  | cons c cs ih =>
    rw [utf8Bytes, List.flatMap_cons, List.length_append, String.length_utf8EncodeChar,
      byteLength_cons, ← ih, utf8Bytes]

theorem utf8Bytes_head? (c : Char) (cs : List Char) :
    (utf8Bytes (c :: cs)).head? = (String.utf8EncodeChar c).head? := by
  rw [utf8Bytes, List.flatMap_cons]
  exact List.head?_append_of_ne_nil _ String.utf8EncodeChar_ne_nil

theorem utf8Bytes_getLast? (cs : List Char) (c : Char) :
    (utf8Bytes (cs ++ [c])).getLast? = (String.utf8EncodeChar c).getLast? := by
  rw [utf8Bytes, List.flatMap_append, List.flatMap_singleton]
  exact List.getLast?_append_of_ne_nil _ String.utf8EncodeChar_ne_nil

theorem utf8Bytes_head?_eq_iff {c q : Char} (hq : q.toNat < 128) (cs : List Char) :
    (utf8Bytes (c :: cs)).head? = some (UInt8.ofNat q.toNat) ↔ c = q := by
  rw [utf8Bytes_head?]
  constructor
  · exact fun h => eq_of_mem_utf8EncodeChar hq (List.mem_of_mem_head? h)
  · rintro rfl
    rw [utf8EncodeChar_ascii hq, List.head?_cons]

theorem utf8Bytes_getLast?_eq_iff {c q : Char} (hq : q.toNat < 128) (cs : List Char) :
    (utf8Bytes (cs ++ [c])).getLast? = some (UInt8.ofNat q.toNat) ↔ c = q := by
  rw [utf8Bytes_getLast?]
  constructor
  · exact fun h => eq_of_mem_utf8EncodeChar hq (List.mem_of_getLast? h)
  · rintro rfl
    rw [utf8EncodeChar_ascii hq, List.getLast?_singleton]

/-- A quote at both ends is one byte each, so what lies between them starts and ends between
characters. -/
theorem slice_between {c d : Char} (hc : c.utf8Size = 1) (hd : d.utf8Size = 1) (cs : List Char) :
    slice? (c :: (cs ++ [d])) 1 ((utf8Bytes (c :: (cs ++ [d]))).length - 1) = some cs := by
  refine slice?_eq_some_iff.mpr ⟨[c], [d], rfl, ?_, ?_⟩
  · rw [byteLength_cons, hc, byteLength_nil]
  · rw [length_utf8Bytes]
    simp only [byteLength_cons, byteLength_append, byteLength_nil, hc, hd]
    omega

/-- Quotes are removed without a failing slice, whatever the text is. -/
theorem unquoteChecked_eq (cs : List Char) : unquoteChecked cs = some (unquoteOnce cs) := by
  cases cs with
  | nil => rfl
  | cons c r =>
    have hquote : (utf8Bytes (c :: r)).head? = some 0x22 ∨ (utf8Bytes (c :: r)).head? = some 0x27 ↔
        c = '\x22' ∨ c = '\x27' :=
      or_congr (utf8Bytes_head?_eq_iff (q := '\x22') (by decide) r)
        (utf8Bytes_head?_eq_iff (q := '\x27') (by decide) r)
    rw [unquoteChecked]
    simp only [hquote]
    by_cases hc : c = '\x22' ∨ c = '\x27'
    · have hascii : c.toNat < 128 := by rcases hc with rfl | rfl <;> decide
      have hsize : c.utf8Size = 1 := by rcases hc with rfl | rfl <;> rfl
      have hhead : (utf8Bytes (c :: r)).head? = some (UInt8.ofNat c.toNat) :=
        (utf8Bytes_head?_eq_iff hascii r).mpr rfl
      rcases List.eq_nil_or_concat' r with rfl | ⟨init, d, rfl⟩
      · have hlen : ¬ 2 ≤ (utf8Bytes [c]).length := by
          rw [length_utf8Bytes, byteLength_cons, byteLength_nil, hsize]
          omega
        rw [if_neg fun h => hlen h.2.1]
        simp [unquoteOnce]
      · have hlast : (utf8Bytes (c :: (init ++ [d]))).getLast? = some (UInt8.ofNat c.toNat) ↔
            d = c :=
          utf8Bytes_getLast?_eq_iff hascii (c :: init)
        by_cases hd : d = c
        · subst hd
          have hlen : 2 ≤ (utf8Bytes (d :: (init ++ [d]))).length := by
            rw [length_utf8Bytes]
            simp only [byteLength_cons, byteLength_append, byteLength_nil, hsize]
            omega
          rw [if_pos ⟨hc, hlen, hhead.trans (hlast.mpr rfl).symm⟩, slice_between hsize hsize]
          simp [unquoteOnce, hc]
        · rw [if_neg fun h => hd (hlast.mp (h.2.2.symm.trans hhead))]
          simp [unquoteOnce, hd]
    · rw [if_neg fun h => hc h.1]
      simp [unquoteOnce, not_or.mp hc]

def withoutHash : List Char → List Char
  | '#' :: r => r
  | r => r

/-- The text inside brackets. What follows the fill of the opener is cut out by the number of its
characters. -/
def bracketBodyChecked (body : List Char) : Option (List Char) :=
  match body with
  | '[' :: r =>
      let level := (r.takeWhile (· == '=')).length
      (sliceFrom? r level).map fun
        | '[' :: inside => withoutEnd (bracketCloser level) inside
        | _ => body
  | _ => some body

def commentProseChecked (comment : Comment) : Option (List (List Char)) :=
  match comment.kind with
  | .line => some [proseLine (comment.text.toList.dropWhile (· == '#'))]
  | .bracket =>
      (bracketBodyChecked (withoutHash comment.text.toList)).map fun cs => (lines cs).map proseLine

/-- A node that ends a run of comments. -/
def isOther (n : Node) : Bool := !n.comment?.isSome

def hasText (line : List Char) : Bool := !allBlank line

/-- The documentation of the node at `index`. The run of comments above it and the lines that stay
are cut out by indices. -/
def documentationChecked (nodes : List Node) (index : Nat) : Option String :=
  (elements? nodes 0 (min index nodes.length)).bind fun above =>
    let start := ((lastIndex? isOther above).map (· + 1)).getD 0
    (elements? above start above.length).bind fun run =>
      ((run.filterMap Node.comment?).mapM commentProseChecked).bind fun prose =>
        let ls := prose.flatten
        match ls.findIdx? hasText, lastIndex? hasText ls with
        | some first, some last =>
            (elements? ls first (last + 1)).map fun kept => String.ofList (joinLines kept)
        | _, _ => some ""

/-- Each `=` is one byte, so their number is the offset of what follows them. -/
theorem sliceFrom?_fill (r : List Char) :
    sliceFrom? r (r.takeWhile (· == '=')).length = some (r.dropWhile (· == '=')) := by
  have hfill : ∀ c ∈ r.takeWhile (· == '='), c.utf8Size = 1 := by
    intro c hc
    obtain rfl : c = '=' := by simpa using List.all_eq_true.mp List.all_takeWhile c hc
    rfl
  have hcut := sliceFrom?_append (r.takeWhile (· == '=')) (r.dropWhile (· == '='))
  rwa [List.takeWhile_append_dropWhile, byteLength_eq_length hfill] at hcut

theorem bracketBodyChecked_of_opener {body inside : List Char} {level : Nat}
    (h : bracketOpen? body = some (level, inside)) :
    bracketBodyChecked body = some (withoutEnd (bracketCloser level) inside) := by
  unfold bracketOpen? at h
  split at h
  next r =>
    split at h
    next rest hrest =>
      simp only [Option.some.injEq, Prod.mk.injEq] at h
      obtain ⟨rfl, rfl⟩ := h
      simp only [bracketBodyChecked, sliceFrom?_fill, hrest, Option.map_some]
    next => simp at h
  next => simp at h

theorem bracketBodyChecked_of_none {body : List Char} (h : bracketOpen? body = none) :
    bracketBodyChecked body = some body := by
  unfold bracketBodyChecked
  split
  next r =>
    simp only [sliceFrom?_fill, Option.map_some]
    split
    next inside hrest => simp [bracketOpen?, hrest] at h
    next => rfl
  next => rfl

theorem bracketBodyChecked_eq (cs : List Char) :
    bracketBodyChecked (withoutHash cs) = some (insideBrackets cs) := by
  unfold insideBrackets
  simp only
  split
  next level inside h => exact bracketBodyChecked_of_opener h
  next h => exact bracketBodyChecked_of_none h

theorem commentProseChecked_eq (comment : Comment) :
    commentProseChecked comment = some (commentProse comment) := by
  unfold commentProseChecked commentProse
  cases comment.kind with
  | line => rfl
  | bracket => simp only [bracketBodyChecked_eq, Option.map_some]

/-- The comments at the end of a list are what follows its last other node. -/
theorem elements?_commentRun (above : List Node) :
    ∃ run, elements? above
        (((lastIndex? isOther above).map (· + 1)).getD 0) above.length =
          some run ∧ run.filterMap Node.comment? = commentRun above := by
  by_cases h : ∃ n ∈ above, isOther n = true
  · obtain ⟨front, n, run, rfl, hn, hrun⟩ := exists_last h
    refine ⟨run, ?_, ?_⟩
    · have hcut := elements?_append (front ++ [n]) run []
      rw [lastIndex?_split hn hrun]
      simpa [Nat.add_assoc, Nat.add_comm 1] using hcut
    · have hcomments : ∀ m ∈ run.reverse, m.comment?.isSome = true := by
        simpa [isOther] using hrun
      have hstop : ¬ n.comment?.isSome = true := by simpa [isOther] using hn
      rw [commentRun, List.reverse_append, List.reverse_cons, List.append_assoc,
        List.takeWhile_append_of_pos hcomments, List.singleton_append,
        List.takeWhile_cons_of_neg (p := fun n : Node => n.comment?.isSome) hstop, List.append_nil,
        List.filterMap_reverse, List.reverse_reverse]
  · have hall : ∀ n ∈ above, isOther n = false := by
      intro n hn
      exact eq_false_of_ne_true fun hne => h ⟨n, hn, hne⟩
    have hcomments : ∀ m ∈ above.reverse, m.comment?.isSome = true := by
      simpa [isOther] using hall
    refine ⟨above, ?_, ?_⟩
    · rw [lastIndex?_eq_none hall, Option.map_none, Option.getD_none,
        elements?_eq_some (Nat.zero_le _) (Nat.le_refl _), List.take_length, List.drop_zero]
    · rw [commentRun, List.takeWhile_eq_self_iff.mpr hcomments, List.filterMap_reverse,
        List.reverse_reverse]

theorem dropEndWhile_split {α : Type} {p : α → Bool} {back : List α} {x : α} (hx : p x = false)
    (hb : ∀ y ∈ back, p y = true) (front : List α) :
    dropEndWhile p (front ++ x :: back) = front ++ [x] := by
  have hback : ∀ y ∈ back.reverse, p y = true := fun y hy => hb y (List.mem_reverse.mp hy)
  rw [dropEndWhile, List.reverse_append, List.reverse_cons, List.append_assoc,
    List.dropWhile_append_of_pos hback, List.singleton_append,
    List.dropWhile_cons_of_neg (by simp [hx]), List.reverse_cons, List.reverse_reverse]

/-- What lies between the first and the last line with text is what stays without blank edges. -/
theorem elements?_withoutBlankEdges (ls : List (List Char)) :
    (match ls.findIdx? hasText, lastIndex? hasText ls with
      | some first, some last =>
          (elements? ls first (last + 1)).map fun kept => String.ofList (joinLines kept)
      | _, _ => some "") = some (String.ofList (joinLines (withoutBlankEdges ls))) := by
  by_cases h : ∃ l ∈ ls, hasText l = true
  · obtain ⟨front, first, tail, rfl, hfirst, hfront⟩ := exists_first h
    have hkept : ∃ l ∈ first :: tail, hasText l = true := ⟨first, List.mem_cons_self, hfirst⟩
    obtain ⟨mid, last, back, htail, hlast, hback⟩ := exists_last hkept
    have hedges : withoutBlankEdges (front ++ first :: tail) = mid ++ [last] := by
      rw [withoutBlankEdges, List.dropWhile_append_of_pos (by simpa [hasText] using hfront),
        List.dropWhile_cons_of_neg (by simpa [hasText] using hfirst), htail,
        dropEndWhile_split (by simpa [hasText] using hlast) (by simpa [hasText] using hback)]
    have hindex : lastIndex? hasText (front ++ first :: tail) =
        some (front.length + mid.length) := by
      rw [htail, ← List.append_assoc, lastIndex?_split hlast hback, List.length_append]
    have hcut : elements? (front ++ first :: tail) front.length (front.length + mid.length + 1) =
        some (mid ++ [last]) := by
      have hparts := elements?_append front (mid ++ [last]) back
      rw [htail]
      simpa [Nat.add_assoc] using hparts
    rw [findIdx?_split hfirst hfront, hindex, hedges]
    simp only [hcut, Option.map_some]
  · have hblank : ∀ l ∈ ls, hasText l = false := by
      intro l hl
      exact eq_false_of_ne_true fun hne => h ⟨l, hl, hne⟩
    have hedges : withoutBlankEdges ls = [] := by
      rw [withoutBlankEdges, List.dropWhile_eq_nil_iff.mpr (by simpa [hasText] using hblank),
        dropEndWhile_nil]
    rw [List.findIdx?_eq_none_iff.mpr hblank, hedges]
    rfl

theorem mapM_some {α β : Type} {f : α → Option β} {g : α → β} (h : ∀ x, f x = some (g x))
    (xs : List α) : xs.mapM f = some (xs.map g) := by
  induction xs with
  | nil => rfl
  | cons x xs ih => simp [List.mapM_cons, h, ih]

theorem documentationChecked_eq (nodes : List Node) (index : Nat) :
    documentationChecked nodes index = some (documentationAt nodes index) := by
  have habove : elements? nodes 0 (min index nodes.length) = some (nodes.take index) := by
    rw [elements?_eq_some (Nat.zero_le _) (Nat.min_le_right ..), List.drop_zero,
      ← List.take_eq_take_min]
  obtain ⟨run, hrun, hcomments⟩ := elements?_commentRun (nodes.take index)
  simp only [documentationChecked, habove, Option.bind_some, hrun, hcomments,
    mapM_some commentProseChecked_eq, elements?_withoutBlankEdges]
  rw [documentationAt, documentationAbove, List.flatMap_def]

def unquoteTextChecked (s : String) : Option String := (unquoteChecked s.toList).map String.ofList

def listElementsChecked (value : String) : Option (List String) :=
  (unquoteChecked value.toList).map fun cs => (listParts cs).map String.ofList

def Requiredness.observeChecked (policy : Requiredness) (evidence : Evidence)
    (command : Invocation) : Option (Option Evidence) :=
  match policy, command.arguments with
  | .byValidationCall, argument :: _ =>
      if isValidation command.name then
        (unquoteTextChecked argument.text).map fun name => some ⟨name :: evidence.validated⟩
      else some none
  | _, _ => some none

namespace Context

def assignChecked (context : Context) (command : Invocation) : Option Context :=
  match command.arguments with
  | [] => some context
  | target :: values =>
      (values.mapM fun v => listElementsChecked v.text).map fun parts =>
        { context with assigned := (target.text, parts.flatten) :: context.assigned }

/-- Keys and source of a list argument without its quotes. -/
def keysOf (context : Context) (text : List Char) : List String × ListSource :=
  if text = [] ∨ text = ['\x22', '\x22'] ∨ text = ['\x27', '\x27'] then ([], .emptyLiteral)
  else
    match referenceName? text with
    | some name =>
        match context.assigned.lookup (String.ofList name) with
        | some keys => (keys, .reference (String.ofList name) true)
        | none => ([], .reference (String.ofList name) false)
    | none => ((listParts text).map String.ofList, .literal)

def keyListChecked (context : Context) (policy : Requiredness) (variablePrefix argument : String) :
    Option KeyList :=
  (unquoteChecked (trim argument.toList)).map fun text =>
    let found := context.keysOf text
    { keys := found.1
      required := found.1.filter (policy.requires context.evidence variablePrefix)
      source := found.2 }

def specChecked (context : Context) (policy : Requiredness) (command : Invocation) :
    Option (Option KeywordSpec) :=
  match callArguments command with
  | first :: options :: single :: multi :: _ =>
      (unquoteTextChecked first).bind fun variablePrefix =>
        (context.keyListChecked policy variablePrefix options).bind fun options =>
          (context.keyListChecked policy variablePrefix single).bind fun singleValue =>
            (context.keyListChecked policy variablePrefix multi).map fun multiValue =>
              some { variablePrefix, options, singleValue, multiValue }
  | _ => some none

def resolveCallChecked (context : Context) (policy : Requiredness) (command : Invocation) :
    Option Resolution :=
  (context.specChecked policy command).map fun
    | some spec => ⟨[spec], spec.unresolved.map .unknownList⟩
    | none => ⟨[], [.shortCall command.line]⟩

end Context

/-- Resolves the parsing calls among commands, in order. -/
def resolveFromChecked (policy : Requiredness) (context : Context) :
    List Invocation → Option Resolution
  | [] => some .empty
  | command :: rest =>
      (policy.observeChecked context.evidence command).bind fun
        | some evidence => resolveFromChecked policy { context with evidence } rest
        | none =>
            match Role.ofName? command.name with
            | some .assigns =>
                (context.assignChecked command).bind fun context =>
                  resolveFromChecked policy context rest
            | some .parsesArguments =>
                (context.resolveCallChecked policy command).bind fun call =>
                  (resolveFromChecked policy context rest).map call.append
            | _ => resolveFromChecked policy context rest

theorem unquoteTextChecked_eq (s : String) : unquoteTextChecked s = some (unquote s) := by
  rw [unquoteTextChecked, unquoteChecked_eq, Option.map_some, unquote]

theorem listElementsChecked_eq (value : String) :
    listElementsChecked value = some (listElements value) := by
  rw [listElementsChecked, unquoteChecked_eq, Option.map_some, listElements]

theorem Requiredness.observeChecked_eq (policy : Requiredness) (evidence : Evidence)
    (command : Invocation) :
    policy.observeChecked evidence command = some (policy.observe evidence command) := by
  unfold observeChecked observe
  cases policy with
  | never => rfl
  | byValidationCall =>
    cases command.arguments with
    | nil => rfl
    | cons argument rest =>
      simp only [unquoteTextChecked_eq, Option.map_some]
      split <;> rfl

namespace Context
variable (context : Context) (policy : Requiredness) (command : Invocation)

theorem assignChecked_eq : context.assignChecked command = some (context.assign command) := by
  unfold assignChecked assign
  cases command.arguments with
  | nil => rfl
  | cons target values =>
    simp only [mapM_some fun v : Argument => listElementsChecked_eq v.text, Option.map_some,
      List.flatMap_def]

theorem keyListChecked_eq (variablePrefix argument : String) :
    context.keyListChecked policy variablePrefix argument =
      some (context.keyList policy variablePrefix argument) := by
  rw [keyListChecked, unquoteChecked_eq, Option.map_some]
  rfl

theorem specChecked_eq :
    context.specChecked policy command = some (context.spec? policy command) := by
  unfold specChecked spec?
  rcases callArguments command with _ | ⟨first, _ | ⟨options, _ | ⟨single, _ | ⟨multi, rest⟩⟩⟩⟩
  · rfl
  · rfl
  · rfl
  · rfl
  · simp only [unquoteTextChecked_eq, keyListChecked_eq, Option.bind_some, Option.map_some]

theorem resolveCallChecked_eq :
    context.resolveCallChecked policy command = some (context.resolveCall policy command) := by
  unfold resolveCallChecked resolveCall
  cases hs : context.spec? policy command <;> simp only [specChecked_eq, hs, Option.map_some]

end Context

theorem resolveFromChecked_eq (policy : Requiredness) (context : Context)
    (commands : List Invocation) :
    resolveFromChecked policy context commands = some (resolveFrom policy context commands) := by
  induction commands generalizing context with
  | nil => rfl
  | cons command rest ih =>
    simp only [resolveFromChecked, resolveFrom, Requiredness.observeChecked_eq, Option.bind_some,
      Context.assignChecked_eq, Context.resolveCallChecked_eq, ih, Option.map_some]
    cases ho : policy.observe context.evidence command with
    | some evidence => simp [Context.resolve, Context.next, ho]
    | none =>
      cases hr : Role.ofName? command.name with
      | none => simp [Context.resolve, Context.next, ho, hr]
      | some role => cases role <;> simp [Context.resolve, Context.next, ho, hr]

/-- The nodes between the opener and the end of a block, cut out by indices. -/
def Block.bodyChecked (b : Block) (nodes : List Node) : Option (List Node) :=
  let stop := min b.stop nodes.length
  elements? nodes (min (b.start + 1) stop) stop

def Block.callableChecked (b : Block) (policy : Requiredness) (nodes : List Node) :
    Option Callable :=
  (documentationChecked nodes b.start).bind fun documentation =>
    (b.bodyChecked nodes).bind fun body =>
      (resolveFromChecked policy .empty (invocations body)).map fun resolution =>
        { kind := b.kind
          name := b.name
          parameters := b.parameters
          documentation
          line := b.line
          specs := resolution.specs }

def callablesChecked (policy : Requiredness) (nodes : List Node) : Option (List Callable) :=
  (slotBlocks nodes).bind fun bs => bs.mapM fun b => b.callableChecked policy nodes

theorem Block.bodyChecked_eq (b : Block) (nodes : List Node) :
    b.bodyChecked nodes = some (b.body nodes) := by
  have hcut : nodes.take (min b.stop nodes.length) = nodes.take b.stop :=
    List.take_eq_take_min.symm
  rw [bodyChecked, elements?_eq_some (Nat.min_le_right ..) (Nat.min_le_right ..), hcut, body]
  -- A start behind the end cuts out nothing, as does the end itself.
  rcases Nat.le_total (b.start + 1) (min b.stop nodes.length) with hle | hle
  · rw [Nat.min_eq_left hle]
  · have hlen : (nodes.take b.stop).length = min b.stop nodes.length := List.length_take
    rw [Nat.min_eq_right hle, List.drop_eq_nil_of_le (Nat.le_of_eq hlen),
      List.drop_eq_nil_of_le (hlen ▸ hle)]

theorem Block.callableChecked_eq (b : Block) (policy : Requiredness) (nodes : List Node) :
    b.callableChecked policy nodes = some (b.callable policy nodes) := by
  rw [callableChecked, documentationChecked_eq, Option.bind_some, bodyChecked_eq,
    Option.bind_some, resolveFromChecked_eq, Option.map_some]
  rfl

theorem callablesChecked_eq (policy : Requiredness) (nodes : List Node) :
    callablesChecked policy nodes = some (callables policy nodes) := by
  rw [callablesChecked, slotBlocks_eq, Option.bind_some,
    mapM_some fun b : Block => b.callableChecked_eq policy nodes, callables]

end CMakeManual.Manual

namespace CMakeManual.Document
open Script Manual

/-- The page for any nodes. Writing it takes no slice and no index. -/
def nodesPageChecked (policy : Requiredness) (style : Style) (file : String) (nodes : List Node) :
    Option String :=
  (callablesChecked policy nodes).map (markdown style file)

/-- The page for a script, or its faults. -/
def pageChecked (policy : Requiredness) (style : Style) (file source : String) :
    Option (Except (List Fault) String) :=
  (cursorScan source).bind fun
    | .error faults => some (.error faults)
    | .ok tokens =>
        (countingParse tokens).bind fun
          | .error faults => some (.error faults)
          | .ok nodes => (nodesPageChecked policy style file nodes).map .ok

/-- No check fails on the way from a script to its page, or from any nodes to theirs: each step of
the scanner moves on and cuts its text out between characters, the count of parentheses stays above
zero where one is closed, each closer finds its slot and each command its entry, and bodies,
documentation and quoted texts are cut out in range. -/
theorem pages_unfailing (policy : Requiredness) (style : Style) (file : String) :
    (∀ source, pageChecked policy style file source =
      some ((callablesOf policy source).map (markdown style file))) ∧
    ∀ nodes, nodesPageChecked policy style file nodes =
      some (markdown style file (callables policy nodes)) := by
  have hnodes : ∀ nodes, nodesPageChecked policy style file nodes =
      some (markdown style file (callables policy nodes)) := by
    intro nodes
    rw [nodesPageChecked, callablesChecked_eq, Option.map_some]
  refine ⟨?_, hnodes⟩
  intro source
  rw [pageChecked, cursorScan_eq, Option.bind_some, callablesOf, readScript]
  cases scan source with
  | error faults => rfl
  | ok tokens =>
    simp only [countingParse_eq, Option.bind_some]
    cases hp : parse tokens with
    | error faults => simp only [Except.bind, Except.map, hp]
    | ok nodes => simp only [Except.bind, Except.map, hp, hnodes, Option.map_some]

end CMakeManual.Document
