import CMakeManual.Document.Markdown
import CMakeManual.Proofs.Manual.Prose
import CMakeManual.Proofs.Script.BlankLines

/-! Documentation in its normal form. A node is documented by the run of comments directly above it
and by nothing else. The text has no blank line at its ends and no line that ends in a blank, so it
comes back when it is written in comments again, and a page shows it as it is. -/
namespace CMakeManual.Manual
open Text Script Vocabulary Document

/-- The comments `run` stand directly above the node at `i`, or at the end if there is no such node,
and no further comment stands above them. -/
def RunAbove (nodes : List Node) (i : Nat) (run : List Comment) : Prop :=
  ∃ front, nodes.take i = front ++ run.map .comment ∧ EndsUncommented front

theorem map_comment_filterMap {ns : List Node} (h : ∀ n ∈ ns, n.comment?.isSome = true) :
    (ns.filterMap Node.comment?).map .comment = ns := by
  induction ns with
  | nil => rfl
  | cons n ns ih =>
    have hrest := ih fun m hm => h m (by simp [hm])
    cases n with
    | comment text => exact congrArg (Node.comment text :: ·) hrest
    | invocation command => exact absurd (h _ List.mem_cons_self) (by simp [Node.comment?])
    | blankLine line => exact absurd (h _ List.mem_cons_self) (by simp [Node.comment?])

/-- Nodes end in the comments that are collected from their end. -/
theorem exists_front (above : List Node) :
    ∃ front, above = front ++ (commentRun above).map .comment ∧ EndsUncommented front := by
  let isComment (n : Node) : Bool := n.comment?.isSome
  refine ⟨(above.reverse.dropWhile isComment).reverse, ?_, ?_⟩
  · have hrun : (commentRun above).map .comment = (above.reverse.takeWhile isComment).reverse := by
      rw [commentRun, List.map_reverse, map_comment_filterMap]
      intro n hn
      exact List.all_eq_true.mp List.all_takeWhile n hn
    rw [hrun, ← List.reverse_append, List.takeWhile_append_dropWhile, List.reverse_reverse]
  · intro n hn
    rw [List.getLast?_reverse] at hn
    exact Option.not_isSome_iff_eq_none.mp (by simpa [isComment] using of_mem_head?_dropWhile hn)

theorem runAbove_iff {nodes : List Node} {i : Nat} {run : List Comment} :
    RunAbove nodes i run ↔ commentRun (nodes.take i) = run := by
  constructor
  · rintro ⟨front, hfront, hend⟩
    rw [hfront, commentRun_append hend, commentRun_comments]
  · rintro rfl
    exact exists_front (nodes.take i)

theorem RunAbove.documentationAt {nodes : List Node} {i : Nat} {run : List Comment}
    (h : RunAbove nodes i run) :
    documentationAt nodes i =
      String.ofList (joinLines (withoutBlankEdges (run.flatMap commentProse))) := by
  rw [Manual.documentationAt, documentationAbove, runAbove_iff.mp h]

theorem RunAbove.mem {nodes : List Node} {i : Nat} {run : List Comment} (h : RunAbove nodes i run)
    {c : Comment} (hc : c ∈ run) : .comment c ∈ nodes := by
  obtain ⟨front, hfront, -⟩ := h
  apply List.mem_of_mem_take (i := i)
  rw [hfront]
  exact List.mem_append_right front (List.mem_map_of_mem hc)

/-- The lines of a comment without its marks. -/
def unmarkedLines (c : Comment) : List (List Char) :=
  match c.kind with
  | .line => [c.text.toList.dropWhile (· == '#')]
  | .bracket => lines (insideBrackets c.text.toList)

theorem commentProse_eq (c : Comment) : commentProse c = (unmarkedLines c).map proseLine := by
  unfold commentProse unmarkedLines
  cases c.kind <;> rfl

/-- A line comment does not reach over the end of its line. -/
def LineCommentsWhole (nodes : List Node) : Prop :=
  ∀ c, .comment c ∈ nodes → c.kind = .line → '\n' ∉ c.text.toList

theorem newline_not_mem_lines {cs l : List Char} (h : l ∈ lines cs) : '\n' ∉ l := by
  fun_induction lines cs generalizing l with
  | case1 => simp at h
  | case2 r ih =>
    rcases List.mem_cons.mp h with rfl | h
    · simp
    · exact ih h
  | case3 r ih =>
    rcases List.mem_cons.mp h with rfl | h
    · simp
    · exact ih h
  | case4 c r hnewline _ hr _ =>
    obtain rfl := List.mem_singleton.mp h
    simpa using Ne.symm hnewline
  | case5 c r hnewline _ first rest hr ih =>
    rcases List.mem_cons.mp h with rfl | h
    · have hfirst : '\n' ∉ first := ih (by simp [hr])
      simp [hfirst, Ne.symm hnewline]
    · exact ih (by simp [hr, h])

theorem newline_not_mem_unmarkedLines {c : Comment}
    (hc : c.kind = .line → '\n' ∉ c.text.toList) {l : List Char} (h : l ∈ unmarkedLines c) :
    '\n' ∉ l := by
  unfold unmarkedLines at h
  split at h
  next hline =>
    obtain rfl := List.mem_singleton.mp h
    exact fun hn => hc hline ((List.dropWhile_suffix _).subset hn)
  next => exact newline_not_mem_lines h

theorem proseLine_subset (l : List Char) : proseLine l ⊆ l := by
  have htrim : trimEnd l ⊆ l := (dropEndWhile_isPrefix isBlank l).subset
  unfold proseLine
  split
  next r hr =>
    rw [hr] at htrim
    exact List.Subset.trans (List.subset_cons_self ' ' r) htrim
  next => exact htrim

/-- Prose ends as the trimmed line does. -/
theorem getLast?_proseLine (l : List Char) : (proseLine l).getLast? = (trimEnd l).getLast? := by
  unfold proseLine
  split
  next r hr =>
    cases r with
    | nil =>
      have hspace : ' ' ∈ (trimEnd l).getLast? := by simp [hr]
      exact absurd (of_mem_getLast?_dropEndWhile hspace) (by decide)
    | cons c r => rw [hr, List.getLast?_cons_cons]
  next => rfl

theorem proseLine_trimmed (l : List Char) : ∀ c ∈ (proseLine l).getLast?, isBlank c = false := by
  intro c hc
  rw [getLast?_proseLine] at hc
  exact of_mem_getLast?_dropEndWhile hc

theorem trimEnd_eq_nil_iff {l : List Char} : trimEnd l = [] ↔ allBlank l = true :=
  List.rdropWhile_eq_nil_iff.trans List.all_eq_true.symm

/-- A line is blank exactly if its prose is. -/
theorem allBlank_proseLine (l : List Char) : allBlank (proseLine l) = allBlank l := by
  rw [Bool.eq_iff_iff]
  constructor
  · intro hprose
    rw [← trimEnd_eq_nil_iff, ← List.getLast?_eq_none_iff, ← getLast?_proseLine]
    rw [Option.eq_none_iff_forall_not_mem]
    intro c hc
    have hblank := List.all_eq_true.mp hprose c (List.mem_of_getLast? hc)
    rw [proseLine_trimmed l c hc] at hblank
    exact Bool.false_ne_true hblank
  · intro hl
    exact List.all_eq_true.mpr fun c hc => List.all_eq_true.mp hl c (proseLine_subset l hc)

theorem withoutBlankEdges_subset (ls : List (List Char)) : withoutBlankEdges ls ⊆ ls :=
  List.Subset.trans (dropEndWhile_isPrefix allBlank _).subset
    (List.dropWhile_suffix allBlank).subset

theorem withoutBlankEdges_eq_nil_iff {ls : List (List Char)} :
    withoutBlankEdges ls = [] ↔ ∀ l ∈ ls, allBlank l = true := by
  have hend : withoutBlankEdges ls = [] ↔ ∀ l ∈ ls.dropWhile allBlank, allBlank l = true :=
    List.rdropWhile_eq_nil_iff
  rw [hend]
  constructor
  · intro h l hl
    rw [← List.takeWhile_append_dropWhile (p := allBlank) (l := ls)] at hl
    rcases List.mem_append.mp hl with hl | hl
    · exact List.all_eq_true.mp List.all_takeWhile l hl
    · exact h l hl
  · exact fun h l hl => h l ((List.dropWhile_suffix allBlank).subset hl)

/-- Neither the first nor the last of the lines that are left is blank. -/
theorem withoutBlankEdges_ends (ls : List (List Char)) :
    (∀ l ∈ (withoutBlankEdges ls).head?, allBlank l = false) ∧
      ∀ l ∈ (withoutBlankEdges ls).getLast?, allBlank l = false := by
  refine ⟨fun l hl => ?_, fun l hl => of_mem_getLast?_dropEndWhile hl⟩
  obtain ⟨rest, hrest⟩ := dropEndWhile_isPrefix allBlank (ls.dropWhile allBlank)
  obtain ⟨others, hothers⟩ := List.head?_eq_some_iff.mp hl
  have hfirst : l ∈ (ls.dropWhile allBlank).head? := by
    rw [← hrest, show dropEndWhile allBlank (ls.dropWhile allBlank) = l :: others from hothers]
    rfl
  exact of_mem_head?_dropWhile hfirst

/-- Lines without line ends, joined, are the lines of the text. -/
theorem textLines_joinLines {ls : List (List Char)} (hne : ls ≠ []) (h : ∀ l ∈ ls, '\n' ∉ l) :
    textLines (String.ofList (joinLines ls)) = ls := by
  rw [textLines, String.toList_ofList]
  exact pieces_eq_iff.mpr ⟨hne, h, rfl⟩

section Normal
variable {ls : List (List Char)} (hwhole : ∀ l ∈ ls, '\n' ∉ l)
include hwhole

theorem textLines_withoutBlankEdges (h : withoutBlankEdges ls ≠ []) :
    textLines (String.ofList (joinLines (withoutBlankEdges ls))) = withoutBlankEdges ls :=
  textLines_joinLines h fun l hl => hwhole l (withoutBlankEdges_subset ls hl)

/-- Trimmed lines without the blank ones at their ends are prose, if any are left. -/
theorem isProse_withoutBlankEdges (htrimmed : ∀ l ∈ ls, ∀ c ∈ l.getLast?, isBlank c = false)
    (h : withoutBlankEdges ls ≠ []) :
    IsProse (String.ofList (joinLines (withoutBlankEdges ls))) := by
  have hlines := textLines_withoutBlankEdges hwhole h
  obtain ⟨hfirst, hlast⟩ := withoutBlankEdges_ends ls
  constructor
  · intro l hl
    rw [hlines] at hl
    exact htrimmed l (withoutBlankEdges_subset ls hl)
  · rw [hlines]
    exact fun he => absurd (hfirst [] he) (by decide)
  · rw [hlines]
    exact fun he => absurd (hlast [] he) (by decide)

end Normal

theorem mem_prose {run : List Comment} {l : List Char} (h : l ∈ run.flatMap commentProse) :
    ∃ c ∈ run, ∃ m ∈ unmarkedLines c, proseLine m = l := by
  obtain ⟨c, hc, hl⟩ := List.mem_flatMap.mp h
  rw [commentProse_eq] at hl
  obtain ⟨m, hm, hml⟩ := List.mem_map.mp hl
  exact ⟨c, hc, m, hm, hml⟩

theorem prose_trimmed (run : List Comment) :
    ∀ l ∈ run.flatMap commentProse, ∀ c ∈ l.getLast?, isBlank c = false := by
  intro l hl
  obtain ⟨-, -, m, -, rfl⟩ := mem_prose hl
  exact proseLine_trimmed m

/-- Nothing is left of a run exactly if all its lines are blank. -/
theorem prose_blank_iff {run : List Comment} :
    withoutBlankEdges (run.flatMap commentProse) = [] ↔
      ∀ c ∈ run, ∀ l ∈ unmarkedLines c, allBlank l = true := by
  rw [withoutBlankEdges_eq_nil_iff]
  constructor
  · intro h c hc l hl
    rw [← allBlank_proseLine]
    apply h
    rw [List.mem_flatMap]
    exact ⟨c, hc, by rw [commentProse_eq]; exact List.mem_map_of_mem hl⟩
  · intro h l hl
    obtain ⟨c, hc, m, hm, rfl⟩ := mem_prose hl
    rw [allBlank_proseLine]
    exact h c hc m hm

section Run
variable {nodes : List Node} {i : Nat} {run : List Comment} (hwhole : LineCommentsWhole nodes)
  (h : RunAbove nodes i run)
include hwhole h

theorem prose_whole : ∀ l ∈ run.flatMap commentProse, '\n' ∉ l := by
  intro l hl hn
  obtain ⟨c, hc, m, hm, rfl⟩ := mem_prose hl
  exact newline_not_mem_unmarkedLines (hwhole c (h.mem hc)) hm (proseLine_subset m hn)

theorem documentationAt_isProse (hne : withoutBlankEdges (run.flatMap commentProse) ≠ []) :
    IsProse (documentationAt nodes i) := by
  rw [h.documentationAt]
  exact isProse_withoutBlankEdges (prose_whole hwhole h) (prose_trimmed run) hne

theorem documentationAt_normal :
    documentationAt nodes i = "" ∨ IsProse (documentationAt nodes i) := by
  by_cases hnone : withoutBlankEdges (run.flatMap commentProse) = []
  · left
    rw [h.documentationAt, hnone]
    rfl
  · exact .inr (documentationAt_isProse hwhole h hnone)

theorem documentationAt_eq_empty_iff :
    documentationAt nodes i = "" ↔ ∀ c ∈ run, ∀ l ∈ unmarkedLines c, allBlank l = true := by
  rw [← prose_blank_iff]
  constructor
  · intro hempty
    by_contra hne
    have hprose := documentationAt_isProse hwhole h hne
    rw [hempty] at hprose
    exact hprose.first rfl
  · intro hnone
    rw [h.documentationAt, hnone]
    rfl

end Run

/-- The comment is the line behind a mark and a space; without a line the space may be missing. -/
def WritesLine (l : List Char) (c : Comment) : Prop :=
  c.kind = .line ∧ (c.text.toList = '#' :: ' ' :: l ∨ l = [] ∧ c.text.toList = ['#'])

/-- The comments are the lines of the text, one each. No text may also be written as no comment. -/
def WritesText (text : String) (comments : List Comment) : Prop :=
  List.Forall₂ WritesLine (textLines text) comments ∨ text = "" ∧ comments = []

theorem WritesLine.commentProse {l : List Char} {c : Comment} (h : WritesLine l c)
    (hl : ∀ c ∈ l.getLast?, isBlank c = false) : commentProse c = [l] := by
  obtain ⟨hkind, htext | ⟨rfl, htext⟩⟩ := h
  · have hprose := proseLine_space hl
    simpa [Manual.commentProse, hkind, htext] using hprose
  · simp [Manual.commentProse, hkind, htext, proseLine, trimEnd]

theorem prose_of_writesLines {ls : List (List Char)} {comments : List Comment}
    (h : List.Forall₂ WritesLine ls comments)
    (hls : ∀ l ∈ ls, ∀ c ∈ l.getLast?, isBlank c = false) : comments.flatMap commentProse = ls := by
  induction h with
  | nil => rfl
  | cons hfirst _ ih =>
    rw [List.flatMap_cons, hfirst.commentProse (hls _ List.mem_cons_self),
      ih fun l hl => hls l (List.mem_cons_of_mem _ hl)]
    rfl

/-- A text in normal form comes back from the comments that write it. -/
theorem documentationAt_of_writesText {text : String} (htext : text = "" ∨ IsProse text)
    {comments : List Comment} (hwrites : WritesText text comments) {nodes : List Node} {i : Nat}
    (h : RunAbove nodes i comments) : documentationAt nodes i = text := by
  rw [h.documentationAt]
  rcases hwrites with hlines | ⟨rfl, rfl⟩
  · have htrimmed : ∀ l ∈ textLines text, ∀ c ∈ l.getLast?, isBlank c = false := by
      rcases htext with rfl | hprose
      · simp [textLines, pieces]
      · exact hprose.trimmed
    rw [prose_of_writesLines hlines htrimmed]
    rcases htext with rfl | hprose
    · rfl
    · rw [hprose.withoutBlankEdges, joinLines_textLines, String.ofList_toList]
  · rfl

/-- Trimming does not change the text, it is blank only if it is empty, and the page shows it or, if
it is empty, the notice in its place. -/
structure ShownAsIs (text : String) : Prop where
  trimmed : trimEnd text.toList = text.toList
  blank : trim text.toList = [] ↔ text = ""
  shown : shownDocumentation text = if text = "" then "_No documentation available._" else text

theorem getLast?_joinLines {ls : List (List Char)} {l : List Char} (h : ls.getLast? = some l)
    (hl : l ≠ []) : (joinLines ls).getLast? = l.getLast? := by
  induction ls with
  | nil => simp at h
  | cons first rest ih =>
    cases rest with
    | nil =>
      obtain rfl : first = l := by simpa using h
      simp [joinLines]
    | cons second rest =>
      rw [List.getLast?_cons_cons] at h
      have hrest := ih h
      have hne : joinLines (second :: rest) ≠ [] := by
        intro he
        rw [he, List.getLast?_nil] at hrest
        exact hl (List.getLast?_eq_none_iff.mp hrest.symm)
      rw [← hrest, joinLines, List.intercalate_cons_cons]
      exact List.getLast?_append_of_ne_nil _ hne

/-- Prose ends in a character that is not blank. -/
theorem IsProse.getLast? {text : String} (h : IsProse text) :
    ∃ c ∈ text.toList.getLast?, isBlank c = false := by
  obtain ⟨l, hl⟩ : ∃ l, (textLines text).getLast? = some l :=
    Option.isSome_iff_exists.mp (List.getLast?_isSome.mpr (pieces_ne_nil _ _))
  have hne : l ≠ [] := by
    rintro rfl
    exact h.last hl
  have hlast := List.getLast?_eq_some_getLast hne
  refine ⟨l.getLast hne, ?_, h.trimmed l (List.mem_of_getLast? hl) _ hlast⟩
  rw [← joinLines_textLines, getLast?_joinLines hl hne]
  exact hlast

theorem shownAsIs_of_normal {text : String} (h : text = "" ∨ IsProse text) : ShownAsIs text := by
  rcases h with rfl | hprose
  · exact ⟨rfl, iff_of_true rfl rfl, rfl⟩
  · obtain ⟨c, hc, hblank⟩ := hprose.getLast?
    have htrimmed : trimEnd text.toList = text.toList := by
      apply dropEndWhile_eq_self
      intro d hd
      rwa [Option.mem_unique hd hc]
    have hne : text ≠ "" := by
      rintro rfl
      simp at hc
    have hkept : trim text.toList ≠ [] := by
      intro hnone
      obtain ⟨front, back, hparts, hfront, hback, -, -⟩ := trim_eq_iff.mp hnone
      have hmem : c ∈ front ++ [] ++ back := hparts ▸ List.mem_of_getLast? hc
      rw [List.append_nil, List.mem_append] at hmem
      rw [hmem.elim (hfront c) (hback c)] at hblank
      exact absurd hblank (by decide)
    refine ⟨htrimmed, iff_of_false hkept hne, ?_⟩
    simp [shownDocumentation, htrimmed, hne]

/-- The documentation at `i` is that of the comments `run` above and of nothing else. It is in
normal form, empty only if every line of them is blank, and comes back from the comments that write
it. -/
structure SettledBy (nodes : List Node) (i : Nat) (run : List Comment) : Prop where
  above : RunAbove nodes i run
  alone : ∀ others j, RunAbove others j run → documentationAt others j = documentationAt nodes i
  normal : documentationAt nodes i = "" ∨ IsProse (documentationAt nodes i)
  empty : documentationAt nodes i = "" ↔ ∀ c ∈ run, ∀ l ∈ unmarkedLines c, allBlank l = true
  writtenBack : ∀ comments, WritesText (documentationAt nodes i) comments →
    ∀ others j, RunAbove others j comments → documentationAt others j = documentationAt nodes i

theorem settledBy_commentRun {nodes : List Node} (hwhole : LineCommentsWhole nodes) (i : Nat) :
    SettledBy nodes i (commentRun (nodes.take i)) := by
  have habove : RunAbove nodes i (commentRun (nodes.take i)) := runAbove_iff.mpr rfl
  have hnormal := documentationAt_normal hwhole habove
  refine ⟨habove, ?_, hnormal, documentationAt_eq_empty_iff hwhole habove, ?_⟩
  · intro others j hothers
    rw [hothers.documentationAt, habove.documentationAt]
  · intro comments hwrites others j hothers
    exact documentationAt_of_writesText hnormal hwrites hothers

theorem lineCommentsWhole_of_readScript {source : String} {nodes : List Node}
    (h : readScript source = .ok nodes) : LineCommentsWhole nodes := by
  intro c hc hkind
  have hspelled : CommentText c.kind c.text.toList := wellFormed_of_readScript h _ hc
  rw [hkind] at hspelled
  obtain ⟨r, hr, hline⟩ := CommentText.of_line hspelled
  simpa [hr] using hline

/-- Documentation is settled by the comments directly above a node, in normal form, wherever no line
comment holds a line end; in a script none does. So a page shows the documentation of a callable as
it is. -/
theorem documentation_settled :
    (∀ nodes, LineCommentsWhole nodes →
      (∀ i, ∃ run, SettledBy nodes i run) ∧
      ∀ policy, ∀ c ∈ callables policy nodes, ShownAsIs c.documentation) ∧
    ∀ source nodes, readScript source = .ok nodes → LineCommentsWhole nodes := by
  refine ⟨fun nodes hwhole => ⟨fun i => ?_, fun policy c hc => ?_⟩, fun source nodes h => ?_⟩
  · exact ⟨_, settledBy_commentRun hwhole i⟩
  · obtain ⟨b, -, rfl⟩ := List.mem_map.mp hc
    exact shownAsIs_of_normal (settledBy_commentRun hwhole b.start).normal
  · exact lineCommentsWhole_of_readScript h

/-- A comment of its own above a blank line, then a bracket comment with line ends of two characters
and two line comments with several marks and with none but the mark. -/
def mixedComments : List Node :=
  [.comment ⟨.line, "# Old.", 1⟩, .blankLine 2, .comment ⟨.bracket, "#[[\r\n  a \r\n\n]]", 3⟩,
    .comment ⟨.line, "##   # b\t", 6⟩, .comment ⟨.line, "#", 7⟩, bareCall "function" ["f"]]

theorem documentation_settled_mixed :
    LineCommentsWhole mixedComments ∧
    documentationAt mixedComments 5 = " a\n\n  # b" ∧
    (∃ run, SettledBy mixedComments 5 run) ∧
    documentationAt [.comment ⟨.line, "#  a", 1⟩, .comment ⟨.line, "# ", 2⟩,
      .comment ⟨.line, "#   # b", 3⟩] 3 = " a\n\n  # b" ∧
    (∀ c ∈ callables .never mixedComments, ShownAsIs c.documentation) ∧
    readScript "# a\nset(x)\n" =
      .ok [.comment ⟨.line, "# a", 1⟩, .invocation ⟨"set", [⟨.unquoted, "x"⟩], ⟨4, 10⟩, 2⟩] ∧
    LineCommentsWhole
      [.comment ⟨.line, "# a", 1⟩, .invocation ⟨"set", [⟨.unquoted, "x"⟩], ⟨4, 10⟩, 2⟩] := by
  have hwhole : LineCommentsWhole mixedComments := by
    simp [LineCommentsWhole, mixedComments, bareCall]
  have htext : documentationAt mixedComments 5 = " a\n\n  # b" := by decide +kernel
  have hread : readScript "# a\nset(x)\n" =
      .ok [.comment ⟨.line, "# a", 1⟩, .invocation ⟨"set", [⟨.unquoted, "x"⟩], ⟨4, 10⟩, 2⟩] := by
    decide +kernel
  obtain ⟨hsettled, hshown⟩ := documentation_settled.1 mixedComments hwhole
  obtain ⟨run, hrun⟩ := hsettled 5
  refine ⟨hwhole, htext, ⟨run, hrun⟩, ?_, hshown .never, hread, documentation_settled.2 _ _ hread⟩
  rw [← htext]
  apply hrun.writtenBack [⟨.line, "#  a", 1⟩, ⟨.line, "# ", 2⟩, ⟨.line, "#   # b", 3⟩]
  · rw [htext]
    exact .inl (.cons ⟨rfl, .inl rfl⟩ (.cons ⟨rfl, .inl rfl⟩ (.cons ⟨rfl, .inl rfl⟩ .nil)))
  · exact ⟨[], rfl, by simp [EndsUncommented]⟩

end CMakeManual.Manual
