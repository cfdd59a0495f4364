import CMakeManual.Proofs.Manual.CommentRuns

/-! Comments behind a command on its line. A run of comments that documents a block may start there:
nodes do not tell a comment behind a command from a comment on a line of its own. This is the only
way in which a documenting comment shares its line with a command before it. -/
namespace CMakeManual.Manual
open Text Script Vocabulary

/-- Some byte of the command is on the line. -/
def HoldsPart (source : String) (line : Nat) (command : Invocation) : Prop :=
  ∃ offset, command.span.start ≤ offset ∧ offset < command.span.stop ∧
    lineAt source offset = line

/-- The line of a command's closing parenthesis. -/
def lastLine (source : String) (command : Invocation) : Nat :=
  lineAt source (command.span.stop - 1)

theorem HoldsPart.le_lastLine {source : String} {line : Nat} {command : Invocation}
    (h : HoldsPart source line command) : line ≤ lastLine source command := by
  obtain ⟨offset, -, hstop, rfl⟩ := h
  exact lineAt_mono source (Nat.le_sub_one_of_lt hstop)

section Read
variable {source : String} {nodes : List Node} (h : readScript source = .ok nodes)
include h

theorem command_holdsPart_lastLine {command : Invocation} (hc : .invocation command ∈ nodes) :
    HoldsPart source (lastLine source command) command := by
  have hlt := command_start_lt_stop h hc
  exact ⟨command.span.stop - 1, by omega, by omega, rfl⟩

theorem command_line_le_lastLine {command : Invocation} (hc : .invocation command ∈ nodes) :
    command.line ≤ lastLine source command := by
  have hlt := command_start_lt_stop h hc
  rw [command_line h hc]
  exact lineAt_mono source (by omega)

/-- Behind nodes that end in no comment, a later node shares its line with a command among them
exactly if they end in a command that ends on that line. -/
theorem sharesLine_iff {front back : List Node} (hnodes : nodes = front ++ back)
    (hfront : EndsUncommented front) {n : Node} (hn : n ∈ back) :
    (∃ command, .invocation command ∈ front ∧ HoldsPart source n.line command) ↔
      ∃ command, front.getLast? = some (.invocation command) ∧
        lastLine source command = n.line := by
  have hends := commands_end h
  have hblank := blankLine_apart h
  rw [hnodes, List.pairwise_append] at hends hblank
  constructor
  · rintro ⟨command, hmem, hpart⟩
    have hline : lastLine source command = n.line :=
      Nat.le_antisymm (hends.2.2 _ hmem n hn command rfl) hpart.le_lastLine
    rcases List.eq_nil_or_concat' front with rfl | ⟨others, m, rfl⟩
    · simp at hmem
    · rcases List.mem_append.mp hmem with hothers | hlast
      · -- The command stands before the last node, which stands before `n`.
        have hm : lastLine source command ≤ m.line :=
          (List.pairwise_append.mp hends.1).2.2 _ hothers m (by simp) command rfl
        cases m with
        | comment text => simpa [Node.comment?] using hfront _ List.getLast?_concat
        | blankLine line =>
          have hlt := hblank.2.2 (.blankLine line) (by simp) n hn rfl
          omega
        | invocation last =>
          have hmem' : .invocation last ∈ nodes := by simp [hnodes]
          have hle := command_line_le_lastLine h hmem'
          have hend := hends.2.2 (.invocation last) (by simp) n hn last rfl
          refine ⟨last, List.getLast?_concat, ?_⟩
          simp only [Node.line] at hm
          unfold lastLine at *
          omega
      · obtain rfl := List.mem_singleton.mp hlast
        exact ⟨command, List.getLast?_concat, hline⟩
  · rintro ⟨command, hlast, hline⟩
    have hmem := List.mem_of_getLast? hlast
    rw [← hline]
    refine ⟨command, hmem, command_holdsPart_lastLine h ?_⟩
    simp [hnodes, hmem]

end Read

/-- A block is documented by the comments directly above its opener. Such a comment stands on a line
with a part of a command before it exactly if the nodes above these comments end in a command that
ends on that line. -/
theorem documenting_comment_trails_iff {source : String} {nodes : List Node}
    (h : readScript source = .ok nodes) (policy : Requiredness) {b : Block}
    (hb : b ∈ blocks nodes) :
    ∃ (front : List Node) (run : List Comment),
      nodes.take b.start = front ++ run.map .comment ∧ EndsUncommented front ∧
      b.callable policy nodes ∈ callables policy nodes ∧
      (b.callable policy nodes).documentation = documentationAbove (run.map .comment) ∧
      ∀ c ∈ run, (∃ command, .invocation command ∈ front ∧ HoldsPart source c.line command) ↔
        ∃ command, front.getLast? = some (.invocation command) ∧
          lastLine source command = c.line := by
  obtain ⟨front, hparts, hfront⟩ := exists_front (nodes.take b.start)
  let run := commentRun (nodes.take b.start)
  have hdocumentation : documentationAt nodes b.start = documentationAbove (run.map .comment) := by
    rw [documentationAt, documentationAbove, documentationAbove, commentRun_comments]
  refine ⟨front, run, hparts, hfront, List.mem_map_of_mem hb, hdocumentation, ?_⟩
  intro c hc
  have hnodes : nodes = front ++ (run.map .comment ++ nodes.drop b.start) := by
    rw [← List.append_assoc, ← hparts, List.take_append_drop]
  have hmem : .comment c ∈ run.map .comment ++ nodes.drop b.start :=
    List.mem_append_left _ (List.mem_map_of_mem hc)
  exact sharesLine_iff h hnodes hfront hmem

/-- A comment behind the end of a command that spreads over two lines, and one on the line below. -/
def trailedScript : String := "set(A\n 1) # why\n# Doc.\nfunction(f)\nendfunction()\n"

def trailedNodes : List Node :=
  [.invocation ⟨"set", [⟨.unquoted, "A"⟩, ⟨.unquoted, "1"⟩], ⟨0, 9⟩, 1⟩,
    .comment ⟨.line, "# why", 2⟩, .comment ⟨.line, "# Doc.", 3⟩,
    .invocation ⟨"function", [⟨.unquoted, "f"⟩], ⟨23, 34⟩, 4⟩,
    .invocation ⟨"endfunction", [], ⟨35, 48⟩, 5⟩]

/-- Both comments document the function; the first stands behind the command, the second does
not. -/
theorem documenting_comment_trails_iff_trailed :
    let f : Block := ⟨.functionBlock, "f", [], 4, 3, 4⟩
    readScript trailedScript = .ok trailedNodes ∧ f ∈ blocks trailedNodes ∧
    (f.callable .never trailedNodes).documentation = "why\nDoc." ∧
    ∃ front : List Node,
      trailedNodes.take 3 = front ++ [.comment ⟨.line, "# why", 2⟩, .comment ⟨.line, "# Doc.", 3⟩] ∧
      (∃ command, .invocation command ∈ front ∧ HoldsPart trailedScript 2 command) ∧
      ¬ ∃ command, .invocation command ∈ front ∧ HoldsPart trailedScript 3 command := by
  intro f
  have hread : readScript trailedScript = .ok trailedNodes := by decide +kernel
  have hf : f ∈ blocks trailedNodes := by decide +kernel
  obtain ⟨front, run, hparts, hfront, -, hdocumentation, htrails⟩ :=
    documenting_comment_trails_iff hread .never hf
  obtain rfl : [⟨.line, "# why", 2⟩, ⟨.line, "# Doc.", 3⟩] = run :=
    runAbove_iff.mp ⟨front, hparts, hfront⟩
  obtain rfl : trailedNodes.take 1 = front := List.append_cancel_right hparts
  refine ⟨hread, hf, hdocumentation.trans (by decide +kernel), _, hparts, ?_, ?_⟩
  · exact (htrails _ List.mem_cons_self).mpr ⟨_, rfl, by decide +kernel⟩
  · rw [htrails ⟨.line, "# Doc.", 3⟩ (by simp)]
    rintro ⟨command, hlast, hline⟩
    obtain rfl := Node.invocation.inj (Option.some.inj hlast)
    exact absurd hline (by decide +kernel)

/-- The comment behind a command is taken for the documentation of the function on the next line. -/
theorem trailing_comment_documents :
    let source := "set(A 1) # why\nfunction(f)\nendfunction()\n"
    let command : Invocation := ⟨"set", [⟨.unquoted, "A"⟩, ⟨.unquoted, "1"⟩], ⟨0, 8⟩, 1⟩
    let nodes : List Node := [.invocation command, .comment ⟨.line, "# why", 1⟩,
      .invocation ⟨"function", [⟨.unquoted, "f"⟩], ⟨15, 26⟩, 2⟩,
      .invocation ⟨"endfunction", [], ⟨27, 40⟩, 3⟩]
    readScript source = .ok nodes ∧
    callablesOf .byValidationCall source = .ok [⟨.functionBlock, "f", [], "why", 2, []⟩] ∧
    RunAbove nodes 2 [⟨.line, "# why", 1⟩] ∧ HoldsPart source 1 command := by
  intro source command nodes
  refine ⟨by decide +kernel, by decide +kernel, runAbove_iff.mpr rfl, 7, ?_⟩
  decide +kernel

end CMakeManual.Manual
