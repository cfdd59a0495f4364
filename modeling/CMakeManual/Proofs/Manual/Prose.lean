import CMakeManual.Proofs.Manual.Concatenation
import CMakeManual.Proofs.Manual.LineEnds
import CMakeManual.Proofs.Text.Parts

/-! Documentation from its source text. Written above a function, as line comments or as one
bracket comment, a text is read back as it was, if none of its lines ends in a blank and neither its
first nor its last line is empty. -/
namespace CMakeManual.Manual
open Text Script Vocabulary

def textLines (text : String) : List (List Char) := pieces '\n' text.toList

/-- No line ends in a blank, and the first and the last line are not empty. -/
structure IsProse (text : String) : Prop where
  trimmed : ∀ l ∈ textLines text, ∀ c ∈ l.getLast?, isBlank c = false
  first : (textLines text).head? ≠ some []
  last : (textLines text).getLast? ≠ some []

/-- A line as a comment of its own. -/
def hashLine (l : List Char) : List Char := if l = [] then ['#'] else '#' :: ' ' :: l

/-- The text in line comments. -/
def inLineComments (text : String) : List Char :=
  (textLines text).flatMap fun l => hashLine l ++ ['\n']

/-- The lines of a bracket comment, each indented by one space. -/
def bracketBody (text : String) : List Char :=
  '\n' :: (textLines text).flatMap fun l => ' ' :: l ++ ['\n']

/-- The text in one bracket comment. -/
def inBracketComment (level : Nat) (text : String) : List Char :=
  '#' :: (bracketOpener level ++ (bracketBody text ++ bracketCloser level)) ++ ['\n']

/-- A function without parameters, empty, with a comment above it. -/
def aboveFunction (comment : List Char) (name : String) : String :=
  String.ofList comment ++ "function(" ++ name ++ ")\nendfunction()\n"

def functionNodes (name : String) : List Node :=
  [.invocation ⟨"function", [⟨.unquoted, name⟩], ⟨0, 0⟩, 0⟩,
    .invocation ⟨"endfunction", [], ⟨0, 0⟩, 0⟩]

theorem functionNodes_wellFormed {name : String} (h : NameText name.toList) :
    ∀ n ∈ functionNodes name, n.WellFormed := by
  have hopener : NameText "function".toList :=
    ⟨'f', "unction".toList, rfl, rfl, List.all_eq_true.mp rfl⟩
  have hcloser : NameText "endfunction".toList :=
    ⟨'e', "ndfunction".toList, rfl, rfl, List.all_eq_true.mp rfl⟩
  obtain ⟨hleft, hright⟩ := h.ne_paren
  rw [functionNodes, List.forall_mem_cons, List.forall_mem_singleton]
  constructor
  · refine ⟨hopener, List.forall_mem_singleton.mpr h.argumentText, ?_⟩
    simp [nested_cons, nested_nil, Argument.opens, Argument.closes, hleft, hright]
  · exact ⟨hcloser, by simp, nested_nil.mpr rfl⟩

theorem aboveFunction_eq (comments : List Comment) (name : String) :
    aboveFunction (canonicalChars (comments.map .comment)) name =
      canonicalText (comments.map .comment ++ functionNodes name) := by
  rw [← String.toList_inj]
  simp [aboveFunction, canonicalText, functionNodes, canonicalChars, Node.chars, Invocation.chars]

theorem writtenFrom_append (p : Position) (ns ms : List Node) :
    writtenFrom p (ns ++ ms) =
      writtenFrom p ns ++ writtenFrom (p.after (canonicalChars ns)) ms := by
  induction ns generalizing p with
  | nil => rfl
  | cons n ns ih =>
    rw [List.cons_append, writtenFrom, ih, writtenFrom, canonicalChars_cons,
      ← Position.after_append, List.append_assoc]
    rfl

/-- Written comments have the same prose. -/
theorem writtenFrom_comments (p : Position) (comments : List Comment) :
    ∃ written : List Comment, writtenFrom p (comments.map .comment) = written.map .comment ∧
      written.flatMap commentProse = comments.flatMap commentProse := by
  induction comments generalizing p with
  | nil => exact ⟨[], rfl, rfl⟩
  | cons c comments ih =>
    obtain ⟨written, hwritten, hprose⟩ := ih (p.after (c.text.toList ++ ['\n']))
    refine ⟨{ c with line := p.line } :: written, ?_, ?_⟩
    · rw [List.map_cons, writtenFrom, List.map_cons, ← hwritten]
      rfl
    · rw [List.flatMap_cons, List.flatMap_cons, hprose]
      rfl

theorem commentRun_comments (comments : List Comment) :
    commentRun (comments.map .comment) = comments := by
  have hall : ∀ n ∈ (comments.map Node.comment).reverse, n.comment?.isSome = true := by
    simp [Node.comment?]
  rw [commentRun, List.takeWhile_eq_self_iff.mpr hall, List.filterMap_reverse, List.reverse_reverse,
    List.filterMap_map]
  exact List.filterMap_some

/-- Comments open no block. -/
theorem blocks_comments (comments : List Comment) : blocks (comments.map .comment) = [] := by
  rw [blocks, List.filterMap_eq_nil_iff]
  rintro ⟨n, i⟩ hn
  obtain ⟨c, -, rfl⟩ := List.mem_map.mp (List.fst_mem_of_mem_zipIdx hn)
  rfl

/-- A function below comments is documented by them. -/
theorem callables_below_comments (policy : Requiredness) (comments : List Comment) (name : String)
    (s s' : Span) (line line' : Nat) :
    callables policy (comments.map .comment ++
        [.invocation ⟨"function", [⟨.unquoted, name⟩], s, line⟩,
          .invocation ⟨"endfunction", [], s', line'⟩]) =
      [⟨.functionBlock, name, [], documentationAbove (comments.map .comment), line, []⟩] := by
  have hclosed : ClosesItsBlocks (comments.map .comment) := by
    simp [ClosesItsBlocks, blocks_comments]
  have hopens : Role.ofName? "function" = some (.opens .functionBlock) := by decide
  have hcloses : Role.ofName? "endfunction" = some (.closes .functionBlock) := by decide
  have hblocks : blocks [.invocation ⟨"function", [⟨.unquoted, name⟩], s, line⟩,
      .invocation ⟨"endfunction", [], s', line'⟩] =
        [⟨.functionBlock, name, [], line, 0, 1⟩] := by
    simp [blocks, openedBlock?, blockStop, outline, outlineFrom, nodeOutline, commandOutline,
      Node.invocation?, closeBlock, fromClosed, hopens, hcloses]
  rw [callables, hclosed.blocks_append, blocks_comments, hblocks]
  simp [Block.callable, Block.renumber, documentationAt, Block.resolution, Block.body, resolveBody,
    invocations, resolveFrom, Resolution.empty]

/-- Comments with their spelling above a function are its documentation. -/
theorem callablesOf_aboveFunction {comments : List Comment}
    (h : ∀ c ∈ comments, CommentText c.kind c.text.toList) {name : String}
    (hname : NameText name.toList) (policy : Requiredness) :
    callablesOf policy (aboveFunction (canonicalChars (comments.map .comment)) name) =
      .ok [⟨.functionBlock, name, [],
        String.ofList (joinLines (withoutBlankEdges (comments.flatMap commentProse))),
        1 + (canonicalChars (comments.map .comment)).count '\n', []⟩] := by
  have hnodes : ∀ n ∈ comments.map .comment ++ functionNodes name, n.WellFormed := by
    intro n hn
    rcases List.mem_append.mp hn with hn | hn
    · obtain ⟨c, hc, rfl⟩ := List.mem_map.mp hn
      exact h c hc
    · exact functionNodes_wellFormed hname n hn
  obtain ⟨written, hwritten, hprose⟩ := writtenFrom_comments .first comments
  have hdocumentation : documentationAbove (written.map .comment) =
      String.ofList (joinLines (withoutBlankEdges (comments.flatMap commentProse))) := by
    rw [documentationAbove, commentRun_comments, hprose]
  rw [callablesOf, aboveFunction_eq, readScript_of_lexemes hnodes (lexemes_canonicalText hnodes),
    writtenFrom_append, hwritten, ← hdocumentation]
  exact congrArg Except.ok (callables_below_comments policy written name _ _ _ _)

/-- The space in front of a line is taken off again. -/
theorem proseLine_space {l : List Char} (h : ∀ c ∈ l.getLast?, isBlank c = false) :
    proseLine (' ' :: l) = l := by
  cases l with
  | nil => rfl
  | cons c l =>
    have hlast : trimEnd (' ' :: c :: l) = ' ' :: c :: l := by
      apply dropEndWhile_eq_self
      simpa using h
    rw [proseLine, hlast]
    rfl

theorem commentProse_hashLine {l : List Char} (h : ∀ c ∈ l.getLast?, isBlank c = false)
    (line : Nat) : commentProse ⟨.line, String.ofList (hashLine l), line⟩ = [l] := by
  by_cases hl : l = []
  · simp [commentProse, hashLine, hl, proseLine, trimEnd]
  · have hprose := proseLine_space h
    simpa [commentProse, hashLine, hl] using hprose

theorem allBlank_eq_false {l : List Char} (hl : l ≠ [])
    (h : ∀ c ∈ l.getLast?, isBlank c = false) : allBlank l = false := by
  have hlast := h _ (List.getLast?_eq_some_getLast hl)
  rw [allBlank, List.all_eq_false]
  exact ⟨_, List.getLast_mem hl, by simp [hlast]⟩

/-- Prose has no blank lines at its ends. -/
theorem IsProse.withoutBlankEdges {text : String} (h : IsProse text) :
    withoutBlankEdges (textLines text) = textLines text := by
  have hstart : (textLines text).dropWhile allBlank = textLines text := by
    cases hl : textLines text with
    | nil => rfl
    | cons l ls =>
      have hmem : l ∈ textLines text := by simp [hl]
      have hne : l ≠ [] := by
        rintro rfl
        exact h.first (by simp [hl])
      simp [allBlank_eq_false hne (h.trimmed l hmem)]
  rw [Manual.withoutBlankEdges, hstart]
  apply dropEndWhile_eq_self
  intro l hl
  have hmem := List.mem_of_getLast? hl
  have hne : l ≠ [] := by
    rintro rfl
    exact h.last hl
  exact allBlank_eq_false hne (h.trimmed l hmem)

theorem joinLines_textLines (text : String) : joinLines (textLines text) = text.toList :=
  (pieces_eq_iff.mp rfl).2.2

theorem textLines_whole {text : String} {l : List Char} (h : l ∈ textLines text) : '\n' ∉ l :=
  not_mem_of_mem_pieces h

theorem newline_not_mem_hashLine {l : List Char} (h : '\n' ∉ l) : '\n' ∉ hashLine l := by
  unfold hashLine
  split <;> simp [h]

theorem hashLine_commentText {l : List Char} (h : '\n' ∉ l) : CommentText .line (hashLine l) := by
  unfold hashLine
  split
  · exact .line (by simp) fun level => by simp [bracketOpener]
  · exact .line (by simpa using h) fun level => by simp [bracketOpener]

def lineComments (text : String) : List Comment :=
  (textLines text).map fun l => ⟨.line, String.ofList (hashLine l), 0⟩

theorem canonicalChars_lineComments (text : String) :
    canonicalChars ((lineComments text).map .comment) = inLineComments text := by
  simp [canonicalChars, lineComments, inLineComments, List.flatMap_map, Node.chars]

theorem IsProse.lineComments_prose {text : String} (h : IsProse text) :
    (lineComments text).flatMap commentProse = textLines text := by
  have hsingle : ∀ l ∈ textLines text,
      commentProse ⟨.line, String.ofList (hashLine l), 0⟩ = [l] :=
    fun l hl => commentProse_hashLine (h.trimmed l hl) 0
  rw [lineComments, List.flatMap_map, List.flatMap_congr hsingle]
  simp

theorem count_inLineComments (text : String) :
    (inLineComments text).count '\n' = (textLines text).length := by
  have hlines : inLineComments text = ((textLines text).map hashLine).flatMap (· ++ ['\n']) := by
    rw [inLineComments, List.flatMap_map]
  rw [hlines, count_flatMap_end, List.length_map]
  intro l hl
  obtain ⟨m, hm, rfl⟩ := List.mem_map.mp hl
  exact newline_not_mem_hashLine (textLines_whole hm)

def bracketComment (level : Nat) (text : String) : Comment :=
  ⟨.bracket,
    String.ofList ('#' :: (bracketOpener level ++ (bracketBody text ++ bracketCloser level))), 0⟩

theorem canonicalChars_bracketComment (level : Nat) (text : String) :
    canonicalChars [.comment (bracketComment level text)] = inBracketComment level text := by
  simp [canonicalChars, bracketComment, inBracketComment, Node.chars]

/-- The body is made of an empty line and the lines of the text, each behind a space. -/
theorem bracketBody_eq (text : String) :
    bracketBody text = ([] :: (textLines text).map (' ' :: ·)).flatMap (· ++ ['\n']) := by
  simp [bracketBody, List.flatMap_map]

theorem count_inBracketComment (level : Nat) (text : String) :
    (inBracketComment level text).count '\n' = (textLines text).length + 2 := by
  have hbody : (bracketBody text).count '\n' = (textLines text).length + 1 := by
    rw [bracketBody_eq, count_flatMap_end, List.length_cons, List.length_map]
    simpa using fun l hl => textLines_whole hl
  have hopener : (bracketOpener level).count '\n' = 0 :=
    List.count_eq_zero.mpr (by simp [bracketOpener])
  have hcloser : (bracketCloser level).count '\n' = 0 :=
    List.count_eq_zero.mpr (by simp [bracketCloser])
  simp [inBracketComment, hopener, hbody, hcloser]

/-- No closer that stands in no line of the text stands in the body. -/
theorem closer_not_in_body {level : Nat} {text : String}
    (h : ∀ l ∈ textLines text, ¬ bracketCloser level <:+: l) :
    ¬ bracketCloser level <:+: bracketBody text := by
  rw [bracketBody_eq]
  intro hinside
  obtain ⟨l, hl, hcloser⟩ :=
    infix_of_flatMap_end (by simp [bracketCloser]) (by simp [bracketCloser]) hinside
  rcases List.mem_cons.mp hl with rfl | hl
  · simp [bracketCloser] at hcloser
  · obtain ⟨m, hm, rfl⟩ := List.mem_map.mp hl
    rcases List.infix_cons_iff.mp hcloser with hfirst | hlater
    · simp [bracketCloser] at hfirst
    · exact h m hm hlater

/-- Then the closer closes the comment at its end and not before. -/
theorem bracketBody_closed {level : Nat} {text : String}
    (h : ∀ l ∈ textLines text, ¬ bracketCloser level <:+: l) (u v : List Char)
    (huv : bracketBody text ++ bracketCloser level = u ++ (bracketCloser level ++ v)) : v = [] := by
  rcases List.append_eq_append_iff.mp huv with ⟨w, -, hw⟩ | ⟨w, hbody, hw⟩
  · have hlength := congrArg List.length hw
    simp only [List.length_append] at hlength
    exact List.length_eq_zero_iff.mp (by omega)
  · by_cases hempty : w = []
    · simpa [hempty] using hw
    · have hlast : (bracketBody text).getLast? = some '\n' := by
        rw [bracketBody_eq]
        exact getLast?_flatMap_end (List.cons_ne_nil _ _)
      have hend : '\n' ∈ w := by
        apply List.mem_of_getLast?
        rwa [hbody, List.getLast?_append_of_ne_nil _ hempty] at hlast
      rcases List.append_eq_append_iff.mp hw with ⟨x, hx, -⟩ | ⟨x, hx, -⟩
      · apply absurd _ (closer_not_in_body h)
        rw [hbody, hx]
        exact List.infix_append' u _ x
      · have hcloser : '\n' ∈ bracketCloser level := by simp [hx, hend]
        simp [bracketCloser] at hcloser

theorem bracketComment_commentText {level : Nat} {text : String}
    (h : ∀ l ∈ textLines text, ¬ bracketCloser level <:+: l) :
    CommentText .bracket (bracketComment level text).text.toList := by
  rw [bracketComment, String.toList_ofList]
  exact .bracket ⟨level, bracketBody text, rfl, bracketBody_closed h⟩

theorem IsProse.bracketComment_prose {text : String} (h : IsProse text) (level : Nat) :
    commentProse (bracketComment level text) = [] :: textLines text := by
  have hwhole : ∀ l ∈ [] :: (textLines text).map (' ' :: ·), '\n' ∉ l := by
    simpa using fun l hl => textLines_whole hl
  have hreturn : ∀ l ∈ [] :: (textLines text).map (' ' :: ·), l.getLast? ≠ some '\r' := by
    intro l hl
    rcases List.mem_cons.mp hl with rfl | hl
    · simp
    · obtain ⟨m, hm, rfl⟩ := List.mem_map.mp hl
      cases m with
      | nil => simp
      | cons c m =>
        intro hlast
        have hblank := h.trimmed _ hm '\r' (by simpa using hlast)
        exact absurd hblank (by decide)
  have hlines : lines (bracketBody text) = [] :: (textLines text).map (' ' :: ·) := by
    rw [bracketBody_eq]
    exact lines_flatMap_end hwhole hreturn
  have hprose : ((textLines text).map (' ' :: ·)).map proseLine = textLines text := by
    rw [List.map_map]
    calc (textLines text).map (proseLine ∘ (' ' :: ·)) = (textLines text).map id :=
          List.map_congr_left fun l hl => proseLine_space (h.trimmed l hl)
      _ = textLines text := List.map_id _
  show (lines (insideBrackets (String.ofList _).toList)).map proseLine = [] :: textLines text
  rw [String.toList_ofList, insideBrackets_bracket, hlines, List.map_cons, hprose]
  rfl

/-- Documentation is read back from both forms of comment as it was, whatever its characters. -/
theorem callablesOf_documented {text name : String} (h : IsProse text)
    (hname : NameText name.toList) (policy : Requiredness) :
    callablesOf policy (aboveFunction (inLineComments text) name) =
        .ok [⟨.functionBlock, name, [], text, (textLines text).length + 1, []⟩] ∧
      ∀ level, (∀ l ∈ textLines text, ¬ bracketCloser level <:+: l) →
        callablesOf policy (aboveFunction (inBracketComment level text) name) =
          .ok [⟨.functionBlock, name, [], text, (textLines text).length + 3, []⟩] := by
  constructor
  · have hcomments : ∀ c ∈ lineComments text, CommentText c.kind c.text.toList := by
      intro c hc
      obtain ⟨l, hl, rfl⟩ := List.mem_map.mp hc
      rw [String.toList_ofList]
      exact hashLine_commentText (textLines_whole hl)
    have hread := callablesOf_aboveFunction hcomments hname policy
    rw [canonicalChars_lineComments, count_inLineComments, h.lineComments_prose,
      h.withoutBlankEdges, joinLines_textLines, String.ofList_toList, Nat.add_comm] at hread
    exact hread
  · intro level hlevel
    have hcomments : ∀ c ∈ [bracketComment level text], CommentText c.kind c.text.toList :=
      List.forall_mem_singleton.mpr (bracketComment_commentText hlevel)
    have hread := callablesOf_aboveFunction hcomments hname policy
    have hedge : withoutBlankEdges ([] :: textLines text) = withoutBlankEdges (textLines text) :=
      rfl
    rw [List.map_singleton, canonicalChars_bracketComment, count_inBracketComment,
      List.flatMap_singleton, h.bracketComment_prose, hedge, h.withoutBlankEdges,
      joinLines_textLines, String.ofList_toList, Nat.add_comm] at hread
    exact hread

/-- A hash, a bracket and its closer, an empty line, an indented one and a lone carriage return. -/
def awkwardText : String := "#[[ a\rb\n\n  ]] c"

theorem callablesOf_documented_awkward :
    callablesOf .byValidationCall "# #[[ a\rb\n#\n#   ]] c\nfunction(f)\nendfunction()\n" =
        .ok [⟨.functionBlock, "f", [], awkwardText, 4, []⟩] ∧
      callablesOf .byValidationCall
          "#[=[\n #[[ a\rb\n \n   ]] c\n]=]\nfunction(f)\nendfunction()\n" =
        .ok [⟨.functionBlock, "f", [], awkwardText, 6, []⟩] := by
  have hlines : textLines awkwardText = ["#[[ a\rb".toList, [], "  ]] c".toList] := by
    decide +kernel
  have hcount : (textLines awkwardText).length = 3 := by
    rw [hlines]
    rfl
  have h : IsProse awkwardText := by
    constructor <;> simp [hlines, isBlank]
  have hname : NameText "f".toList := ⟨'f', [], rfl, rfl, by simp⟩
  have hlevel : ∀ l ∈ textLines awkwardText, ¬ bracketCloser 1 <:+: l := by
    have hfree : ∀ l ∈ textLines awkwardText, '=' ∉ l := by
      rw [hlines]
      decide
    intro l hl hinside
    exact hfree l hl (hinside.subset (by decide))
  have hshort : aboveFunction (inLineComments awkwardText) "f" =
      "# #[[ a\rb\n#\n#   ]] c\nfunction(f)\nendfunction()\n" := by decide +kernel
  have hlong : aboveFunction (inBracketComment 1 awkwardText) "f" =
      "#[=[\n #[[ a\rb\n \n   ]] c\n]=]\nfunction(f)\nendfunction()\n" := by decide +kernel
  obtain ⟨hline, hbracket⟩ := callablesOf_documented h hname .byValidationCall
  have hread := hbracket 1 hlevel
  rw [hshort, hcount] at hline
  rw [hlong, hcount] at hread
  exact ⟨hline, hread⟩

end CMakeManual.Manual
