import CMakeManual.Proofs.Manual.Balance
import CMakeManual.Proofs.Manual.Ranges

/-! What is declared, and scripts put one behind the other. Every named opener declares one
callable, whatever the closers do. Nodes that close all their blocks and do not end in a comment
leave nothing behind for the nodes that follow: no open block, no assignment, no validation and no
comment. So the callables of both together are those of the first and those of the second. -/
namespace CMakeManual.Manual
open Text Script Vocabulary

/-- What a callable shows of the node that declares it. -/
structure Declaration where
  kind : BlockKind
  name : String
  parameters : List String
  documentation : String
  line : Nat
  deriving DecidableEq

def Callable.declaration (c : Callable) : Declaration :=
  ⟨c.kind, c.name, c.parameters, c.documentation, c.line⟩

/-- The kind of block that a command of this name opens, in any letter case. -/
def declaredKind? (name : String) : Option BlockKind :=
  if lowerAscii name = "function".toList then some .functionBlock
  else if lowerAscii name = "macro".toList then some .macroBlock
  else none

/-- What the node at `index` declares: a command that opens a block and has an argument for its
name. -/
def declaration? (nodes : List Node) (index : Nat) : Node → Option Declaration
  | .invocation ⟨name, first :: others, _, line⟩ =>
      (declaredKind? name).map fun kind =>
        ⟨kind, first.text, others.map Argument.text, documentationAt nodes index, line⟩
  | _ => none

/-- Everything that nodes declare, in their order. -/
def declarations (nodes : List Node) : List Declaration :=
  nodes.zipIdx.filterMap fun n => declaration? nodes n.2 n.1

theorem ofName?_opens_iff (name : String) (kind : BlockKind) :
    Role.ofName? name = some (.opens kind) ↔ declaredKind? name = some kind := by
  rw [Role.ofName?_eq_some_iff]
  unfold declaredKind?
  split
  next hf => cases kind <;> simp [hf, Role.canonical]
  next hf =>
    split
    next hm => cases kind <;> simp [hm, Role.canonical]
    next hm =>
      cases kind with
      | functionBlock => exact iff_of_false hf (by simp)
      | macroBlock => exact iff_of_false hm (by simp)

theorem openedBlock?_declaration (policy : Requiredness) (nodes : List Node) (start stop : Nat)
    (n : Node) :
    (openedBlock? start stop n).map (fun b => (b.callable policy nodes).declaration) =
      declaration? nodes start n := by
  cases n with
  | comment text => rfl
  | blankLine line => rfl
  | invocation command =>
    obtain ⟨name, arguments, span, line⟩ := command
    cases arguments with
    | nil =>
      simp only [openedBlock?, declaration?]
      split <;> simp_all
    | cons first others =>
      cases hk : declaredKind? name with
      | some kind =>
        have hr := (ofName?_opens_iff name kind).mpr hk
        simp only [openedBlock?, declaration?, hr, hk, Option.map_some]
        rfl
      | none =>
        simp only [openedBlock?, declaration?, hk, Option.map_none]
        split
        next kind _ _ hr _ =>
          have := (ofName?_opens_iff name kind).mp hr
          simp [hk] at this
        next => rfl

/-- Every declaration gives one callable. -/
theorem callables_declaration (policy : Requiredness) (nodes : List Node) :
    (callables policy nodes).map Callable.declaration = declarations nodes := by
  rw [callables, blocks, List.map_map, List.map_filterMap, declarations]
  congr 1
  funext n
  exact openedBlock?_declaration policy nodes n.2 _ n.1

/-- Every block has its closer among the nodes; one without a closer would stop behind them. -/
def ClosesItsBlocks (nodes : List Node) : Prop := ∀ b ∈ blocks nodes, b.stop < nodes.length

instance (nodes : List Node) : Decidable (ClosesItsBlocks nodes) :=
  inferInstanceAs (Decidable (∀ b ∈ blocks nodes, b.stop < nodes.length))

/-- The last node, if there is one, is no comment. -/
def EndsUncommented (nodes : List Node) : Prop := ∀ n ∈ nodes.getLast?, n.comment? = none

section Joined
variable {ns : List Node} (h : ClosesItsBlocks ns)
include h

theorem ClosesItsBlocks.closedBy {i : Nat} {kind : BlockKind} (ho : openerAt ns i = some kind) :
    ClosedBy ns i (blockStop ns i) := by
  obtain ⟨b, hb, rfl⟩ := mem_blocks_of_opener ho
  obtain ⟨-, -, -, hstop⟩ := opener_of_mem_blocks hb
  rw [← hstop]
  exact (stop_eq_iff_closedBy hb (h b hb)).mp rfl

/-- No block is left open. -/
theorem ClosesItsBlocks.stillOpen : (outline ns).stillOpen = [] := by
  have hreach := outline_take_reaches (Nat.le_refl ns.length)
  rw [List.take_length] at hreach
  apply List.eq_nil_iff_forall_not_mem.mpr
  intro b hb
  have hopen := (hreach.isOpen_iff b.start).mpr ⟨b, hb, rfl⟩
  have hclosed := h.closedBy (hreach.opener b hb)
  exact ((isOpen_iff.mp hopen).2.2 _ hclosed.lt_length).1 hclosed

/-- The closings of both are those of the first and those of the second, moved behind it. -/
theorem ClosesItsBlocks.closings_append (ms : List Node) :
    (outline (ns ++ ms)).closings =
      (outline ns).closings ++
        (outline ms).closings.map (Prod.map (ns.length + ·) (ns.length + ·)) := by
  have hmoved : outlineFrom ns.length [] ms = (outline ms).renumber (ns.length + ·) :=
    outlineFrom_renumber (by simp) [] ms
  have hopen : (outlineFrom 0 [] ns).stillOpen = [] := h.stillOpen
  simp only [outline, outlineFrom_append, hopen, Nat.zero_add, hmoved]
  rfl

theorem ClosesItsBlocks.blockStop_first {i : Nat} {kind : BlockKind}
    (ho : openerAt ns i = some kind) (ms : List Node) :
    blockStop (ns ++ ms) i = blockStop ns i := by
  have hclosed := (mem_closings_iff ns i _).mpr (h.closedBy ho)
  obtain ⟨stop, hs⟩ := exists_lookup_of_mem hclosed
  rw [blockStop, blockStop, h.closings_append, List.lookup_append, hs]
  rfl

theorem ClosesItsBlocks.blockStop_second (ms : List Node) (i : Nat) :
    blockStop (ns ++ ms) (ns.length + i) = ns.length + blockStop ms i := by
  have hfirst : (outline ns).closings.lookup (ns.length + i) = none := by
    rw [List.lookup_eq_none_iff]
    intro c hc
    have := (outline_within ns).1 c hc
    simp only [bne_iff_ne, ne_eq]
    omega
  have hinj : Function.Injective (ns.length + ·) := fun i j h => Nat.add_left_cancel h
  rw [blockStop, blockStop, h.closings_append, List.lookup_append, hfirst, Option.none_or,
    lookup_map_injective hinj, List.length_append]
  cases (outline ms).closings.lookup i <;> rfl

theorem ClosesItsBlocks.blocks_append (ms : List Node) :
    blocks (ns ++ ms) = blocks ns ++ (blocks ms).map (Block.renumber (ns.length + ·)) := by
  have hfirst : openedFrom 0 (blockStop (ns ++ ms)) ns = (blocks ns).map (Block.renumber id) := by
    apply openedFrom_renumber
    · intro k _
      rfl
    · intro k n kind hn ho
      rw [Nat.zero_add]
      exact h.blockStop_first (by rw [openerAt, hn, Option.bind_some, ho]) ms
  have hsecond : openedFrom ns.length (blockStop (ns ++ ms)) ms =
      (blocks ms).map (Block.renumber (ns.length + ·)) := by
    apply openedFrom_renumber
    · intro k _
      rw [Nat.zero_add]
    · intro k n kind _ _
      rw [h.blockStop_second, Nat.zero_add]
  have hid : (blocks ns).map (Block.renumber id) = blocks ns := List.map_id _
  rw [blocks_eq_openedFrom, openedFrom_append, Nat.zero_add, hfirst, hsecond, hid]

end Joined

/-- Comments are collected up to the last node that is none. -/
theorem commentRun_append {ns : List Node} (h : EndsUncommented ns) (ms : List Node) :
    commentRun (ns ++ ms) = commentRun ms := by
  have hstop : ns.reverse.takeWhile (fun n => n.comment?.isSome) = [] := by
    cases hr : ns.reverse with
    | nil => rfl
    | cons n rest =>
      have hlast : ns.getLast? = some n := by rw [← List.head?_reverse, hr, List.head?_cons]
      rw [List.takeWhile_cons, h n hlast]
      rfl
  rw [commentRun, commentRun, List.reverse_append, List.takeWhile_append, hstop]
  split
  next hall => rw [List.append_nil, (List.takeWhile_prefix _).eq_of_length hall]
  next => rfl

theorem documentationAt_first {ns : List Node} {i : Nat} (hi : i ≤ ns.length) (ms : List Node) :
    documentationAt (ns ++ ms) i = documentationAt ns i := by
  rw [documentationAt, documentationAt, List.take_append_of_le_length hi]

theorem documentationAt_second {ns : List Node} (h : EndsUncommented ns) (ms : List Node)
    (i : Nat) : documentationAt (ns ++ ms) (ns.length + i) = documentationAt ms i := by
  rw [documentationAt, documentationAt, List.take_length_add_append, documentationAbove,
    documentationAbove, commentRun_append h]

theorem callable_first {ns : List Node} {b : Block} (hb : b ∈ blocks ns)
    (policy : Requiredness) (ms : List Node) :
    b.callable policy (ns ++ ms) = b.callable policy ns := by
  obtain ⟨n, hn, -, -⟩ := opener_of_mem_blocks hb
  have hstart : b.start ≤ ns.length := Nat.le_of_lt (List.getElem?_eq_some_iff.mp hn).1
  have hbody : b.body (ns ++ ms) = b.body ns := by
    rw [Block.body, Block.body, List.take_append_of_le_length (stop_le_length hb)]
  rw [Block.callable, Block.callable, Block.resolution, Block.resolution, hbody,
    documentationAt_first hstart]

theorem callable_second {ns : List Node} (h : EndsUncommented ns) {ms : List Node} {b : Block}
    (hb : b ∈ blocks ms) (policy : Requiredness) :
    (b.renumber (ns.length + ·)).callable policy (ns ++ ms) = b.callable policy ms := by
  have hbody := body_inside hb ns []
  have hdocumentation := documentationAt_second h ms b.start
  rw [List.append_nil] at hbody
  rw [Block.callable, Block.callable, Block.resolution, Block.resolution, hbody]
  simp only [Block.renumber, hdocumentation]

theorem callables_append {ns : List Node} (h : ClosesItsBlocks ns) (hl : EndsUncommented ns)
    (policy : Requiredness) (ms : List Node) :
    callables policy (ns ++ ms) = callables policy ns ++ callables policy ms := by
  have hfirst : (blocks ns).map (fun b => b.callable policy (ns ++ ms)) = callables policy ns := by
    apply List.map_congr_left
    intro b hb
    exact callable_first hb policy ms
  have hsecond : ((blocks ms).map (Block.renumber (ns.length + ·))).map
      (fun b => b.callable policy (ns ++ ms)) = callables policy ms := by
    rw [List.map_map]
    apply List.map_congr_left
    intro b hb
    exact callable_second hl hb policy
  rw [callables, h.blocks_append, List.map_append, hfirst, hsecond]

/-- Nodes declare one callable for each named opener, in their order and whatever the closers are.
The callables of two lists of nodes are those of each, if the first closes all its blocks and ends
in no comment, and whatever the second is. -/
theorem callables_declared_and_joined (policy : Requiredness) :
    (∀ nodes, (callables policy nodes).map Callable.declaration = declarations nodes) ∧
    ∀ ns ms, ClosesItsBlocks ns → EndsUncommented ns →
      callables policy (ns ++ ms) = callables policy ns ++ callables policy ms := by
  constructor
  · exact callables_declaration policy
  · intro ns ms h hl
    exact callables_append h hl policy ms

/-- A closer without its opener and a closed macro, whose assignment and validation would change the
function that follows; that function is never closed. -/
theorem callables_declared_and_joined_unclosed :
    let ns := [bareCall "endfunction" [], .comment ⟨.line, "# Old.", 2⟩,
      bareCall "MACRO" ["g", "x"], bareCall "set" ["opts", "A"],
      bareCall "check_var_defined" ["P_B"], bareCall "endmacro" []]
    let ms := [.comment ⟨.line, "# New.", 7⟩, bareCall "Function" ["f"],
      bareCall "cmake_parse_arguments" ["P", "$\x7bopts\x7d", "B", ""]]
    ClosesItsBlocks ns ∧ EndsUncommented ns ∧
    callables .byValidationCall (ns ++ ms) =
      callables .byValidationCall ns ++ callables .byValidationCall ms ∧
    (callables .byValidationCall (ns ++ ms)).map Callable.declaration =
      [⟨.macroBlock, "g", ["x"], "Old.", 1⟩, ⟨.functionBlock, "f", [], "New.", 1⟩] := by
  intro ns ms
  obtain ⟨hdeclared, hjoined⟩ := callables_declared_and_joined .byValidationCall
  have hclosed : ClosesItsBlocks ns := by decide
  have hlast : EndsUncommented ns := by simp [EndsUncommented, ns, bareCall, Node.comment?]
  refine ⟨hclosed, hlast, hjoined ns ms hclosed hlast, ?_⟩
  rw [hdeclared]
  decide +kernel

end CMakeManual.Manual
