import CMakeManual.Proofs.Manual.Location
import CMakeManual.Proofs.Manual.Resolution
import Mathlib.Data.List.Nodup

/-! What is reported agrees with what is found. Every block that is reported as found is ended by a
closer, reported as given up or counted among those left open, and every closer ends a block or is
reported as a stray one. The variables reported as unknown are those of the key lists that refer to
an unknown variable, in the same order. -/
namespace CMakeManual.Manual
open Text Script Vocabulary

def Event.isFound : Event → Bool
  | .found .. => true
  | _ => false

/-- The number of blocks that an event says were left open. -/
def Event.unclosed? : Event → Option Nat
  | .leftOpen count => some count
  | _ => none

/-- The variable that an event says is unknown. -/
def Event.unknown? : Event → Option String
  | .unknownList name => some name
  | _ => none

/-- When an event is reported: while blocks are matched, behind the last node, or in a body. -/
inductive Stage where
  | matching
  | ending
  | resolving
  deriving DecidableEq

def Event.stage : Event → Stage
  | .unnamedBlock .. | .found .. | .discarded .. | .strayCloser .. => .matching
  | .leftOpen _ => .ending
  | .shortCall _ | .unknownList _ => .resolving

theorem unclosed?_eq_none {e : Event} (h : e.stage ≠ .ending) : e.unclosed? = none := by
  cases e <;> simp_all [Event.stage, Event.unclosed?]

theorem unknown?_eq_none {e : Event} (h : e.stage ≠ .resolving) : e.unknown? = none := by
  cases e <;> simp_all [Event.stage, Event.unknown?]

/-- What is reported about single blocks is reported while blocks are matched. -/
theorem silent_of_stage {e : Event} (h : e.stage ≠ .matching) :
    e.isFound = false ∧ e.isDiscard = false ∧ e.isStray = false := by
  cases e <;> simp_all [Event.stage, Event.isFound, Event.isDiscard, Event.isStray]

theorem closeBlock_reports (index line : Nat) (kind : BlockKind) (stack : List OpenBlock) :
    ∀ e ∈ (closeBlock index line kind stack).events,
      e.stage = .matching ∧ e.isFound = false := by
  have hlost : ∀ lost : List OpenBlock, ∀ e ∈ lost.map (fun b => Event.discarded b.kind kind),
      e.stage = .matching ∧ e.isFound = false := by
    intro lost e he
    obtain ⟨b, -, rfl⟩ := List.mem_map.mp he
    exact ⟨rfl, rfl⟩
  intro e he
  rcases stack_cases kind stack with ⟨lost, closed, outer, rfl, hl, hc⟩ | hs
  · rw [closeBlock_found hl hc] at he
    exact hlost lost e he
  · rw [closeBlock_stray hs] at he
    rcases List.mem_append.mp he with he | he
    · exact hlost stack e he
    · obtain rfl := List.mem_singleton.mp he
      exact ⟨rfl, rfl⟩

/-- A node reports a block as found exactly if it opens one. -/
theorem nodeOutline_reports (index : Nat) (stack : List OpenBlock) (n : Node) :
    (∀ e ∈ (nodeOutline index stack n).events, e.stage = .matching) ∧
    (nodeOutline index stack n).events.countP Event.isFound =
      [n].countP fun n => (opensBlock? n).isSome := by
  rw [List.countP_singleton]
  cases n with
  | comment text => exact ⟨by simp [nodeOutline, Node.invocation?], rfl⟩
  | blankLine line => exact ⟨by simp [nodeOutline, Node.invocation?], rfl⟩
  | invocation command =>
    cases hr : Role.ofName? command.name with
    | none => simp [nodeOutline, opensBlock?, Node.invocation?, commandOutline, hr]
    | some role =>
      cases role with
      | opens kind =>
        cases ha : command.arguments <;>
          simp [nodeOutline, opensBlock?, Node.invocation?, commandOutline, hr, ha, Event.stage,
            Event.isFound]
      | closes kind =>
        have hreports := closeBlock_reports index command.line kind stack
        have hnode : nodeOutline index stack (.invocation command) =
            closeBlock index command.line kind stack := by
          simp [nodeOutline, Node.invocation?, commandOutline, hr]
        have hnone : opensBlock? (.invocation command) = none := by
          simp [opensBlock?, Node.invocation?, hr]
        rw [hnode, hnone, List.countP_eq_zero.mpr fun e he => by simp [(hreports e he).2]]
        exact ⟨fun e he => (hreports e he).1, rfl⟩
      | assigns => simp [nodeOutline, opensBlock?, Node.invocation?, commandOutline, hr]
      | parsesArguments => simp [nodeOutline, opensBlock?, Node.invocation?, commandOutline, hr]

/-- The books of matching `nodes` inside the open blocks `stack`: each opener reports its block,
each closer ends a block or is reported, and each block is ended, given up or still open. -/
structure Outline.Balances (stack : List OpenBlock) (nodes : List Node) (o : Outline) : Prop where
  openers : o.events.countP Event.isFound = nodes.countP fun n => (opensBlock? n).isSome
  closers : o.closings.length + o.events.countP Event.isStray =
    nodes.countP fun n => (closesBlock? n).isSome
  blocks : o.events.countP Event.isFound + stack.length =
    o.closings.length + o.events.countP Event.isDiscard + o.stillOpen.length

theorem undisturbed_countP {es : List Event} (h : Undisturbed es) :
    es.countP Event.isDiscard = 0 ∧ es.countP Event.isStray = 0 := by
  constructor
  · exact List.countP_eq_zero.mpr fun e he => by simp [(h e he).1]
  · exact List.countP_eq_zero.mpr fun e he => by simp [(h e he).2]

/-- A closer ends one block or is reported once, and gives up the blocks in between. -/
theorem closeBlock_counts (index line : Nat) (kind : BlockKind) (stack : List OpenBlock) :
    let o := closeBlock index line kind stack
    o.closings.length + o.events.countP Event.isStray = 1 ∧
    stack.length = o.closings.length + o.events.countP Event.isDiscard + o.stillOpen.length := by
  have hlost : ∀ lost : List OpenBlock,
      (lost.map fun b => Event.discarded b.kind kind).countP Event.isStray = 0 ∧
      (lost.map fun b => Event.discarded b.kind kind).countP Event.isDiscard = lost.length := by
    intro lost
    simp [List.countP_map, Function.comp_def, Event.isStray, Event.isDiscard]
  rcases stack_cases kind stack with ⟨lost, closed, outer, rfl, hl, hc⟩ | hs
  · obtain ⟨hstray, hdiscard⟩ := hlost lost
    rw [closeBlock_found hl hc]
    simp only [List.length_append, List.length_cons, List.length_nil]
    omega
  · obtain ⟨hstray, hdiscard⟩ := hlost stack
    rw [closeBlock_stray hs]
    simp only [List.countP_append, List.countP_singleton, Event.isStray, Event.isDiscard,
      List.length_nil]
    simp only [↓reduceIte, Bool.false_eq_true]
    omega

/-- One node keeps the books. -/
theorem nodeOutline_balances (index : Nat) (stack : List OpenBlock) (n : Node) :
    (nodeOutline index stack n).Balances stack [n] := by
  have hfound := (nodeOutline_reports index stack n).2
  rcases nodeOutline_cases n with
    ⟨kind, e, ho, hc, he, hn⟩ | ⟨kind, line, ho, hc, hn⟩ | ⟨es, ho, hc, he, hn⟩
  · obtain ⟨hdiscard, hstray⟩ := undisturbed_countP he
    rw [hn] at hfound ⊢
    refine ⟨hfound, ?_, ?_⟩
    · simp [hc, hstray]
    · simp only [hfound, hdiscard, List.countP_singleton, ho, Option.isSome_some, ↓reduceIte,
        List.length_cons, List.length_nil]
      omega
  · obtain ⟨hclosers, hblocks⟩ := closeBlock_counts index line kind stack
    rw [hn] at hfound ⊢
    refine ⟨hfound, ?_, ?_⟩
    · simpa [hc] using hclosers
    · simpa [hfound, ho] using hblocks
  · obtain ⟨hdiscard, hstray⟩ := undisturbed_countP he
    rw [hn] at hfound ⊢
    refine ⟨hfound, ?_, ?_⟩
    · simp [hc, hstray]
    · simp [hfound, ho, hdiscard]

/-- The books of two parts, the second read inside the blocks that the first leaves open, add up. -/
theorem Outline.Balances.append {stack : List OpenBlock} {ns ms : List Node} {o p : Outline}
    (ho : o.Balances stack ns) (hp : p.Balances o.stillOpen ms) :
    Outline.Balances stack (ns ++ ms)
      ⟨o.closings ++ p.closings, p.stillOpen, o.events ++ p.events⟩ := by
  obtain ⟨hopeners, hclosers, hblocks⟩ := ho
  obtain ⟨hopeners', hclosers', hblocks'⟩ := hp
  refine ⟨?_, ?_, ?_⟩
  · simp only [List.countP_append]
    omega
  · simp only [List.countP_append, List.length_append]
    omega
  · simp only [List.countP_append, List.length_append]
    omega

theorem outlineFrom_balances (index : Nat) (stack : List OpenBlock) (ns : List Node) :
    (outlineFrom index stack ns).Balances stack ns := by
  induction ns generalizing index stack with
  | nil => exact ⟨rfl, rfl, by simp [outlineFrom]⟩
  | cons n ns ih =>
    have hfirst := nodeOutline_balances index stack n
    exact hfirst.append (ih (index + 1) (nodeOutline index stack n).stillOpen)

theorem stage_outlineFrom (index : Nat) (stack : List OpenBlock) (ns : List Node) :
    ∀ e ∈ (outlineFrom index stack ns).events, e.stage = .matching := by
  induction ns generalizing index stack with
  | nil => simp [outlineFrom]
  | cons n ns ih =>
    intro e he
    rcases List.mem_append.mp he with he | he
    · exact (nodeOutline_reports index stack n).1 e he
    · exact ih (index + 1) (nodeOutline index stack n).stillOpen e he

theorem nodeOutline_closings (index : Nat) (stack : List OpenBlock) (n : Node) :
    ((nodeOutline index stack n).closings.map Prod.snd).Sublist [index] := by
  rcases nodeOutline_cases n with
    ⟨kind, e, -, -, -, hn⟩ | ⟨kind, line, -, -, hn⟩ | ⟨es, -, -, -, hn⟩
  · rw [hn]
    exact List.nil_sublist _
  · rw [hn]
    rcases stack_cases kind stack with ⟨lost, closed, outer, rfl, hl, hc⟩ | hs
    · rw [closeBlock_found hl hc]
      exact List.Sublist.refl _
    · rw [closeBlock_stray hs]
      exact List.nil_sublist _
  · rw [hn]
    exact List.nil_sublist _

/-- Closers end blocks in their order, each at most one. -/
theorem outlineFrom_closings (index : Nat) (stack : List OpenBlock) (ns : List Node) :
    ((outlineFrom index stack ns).closings.map Prod.snd).Sublist
      (List.range' index ns.length) := by
  induction ns generalizing index stack with
  | nil => exact List.nil_sublist _
  | cons n ns ih =>
    have hfirst := nodeOutline_closings index stack n
    have hrest := ih (index + 1) (nodeOutline index stack n).stillOpen
    rw [outlineFrom, List.map_append, List.length_cons, List.range'_succ]
    exact hfirst.append hrest

theorem closings_nodup (nodes : List Node) : (outline nodes).closings.Nodup :=
  List.Nodup.of_map Prod.snd ((outlineFrom_closings 0 [] nodes).nodup List.nodup_range')

/-- The block stops at a node that closes blocks. -/
def Block.isEnded (nodes : List Node) (b : Block) : Bool := (closerAt nodes b.stop).isSome

section Ended
variable {nodes : List Node} {b : Block} (hb : b ∈ blocks nodes)
include hb

theorem isEnded_iff_closedBy : b.isEnded nodes = true ↔ ClosedBy nodes b.start b.stop := by
  constructor
  · intro h
    obtain ⟨kind, hk⟩ := Option.isSome_iff_exists.mp h
    obtain ⟨n, hn, -⟩ := Option.bind_eq_some_iff.mp hk
    exact (stop_eq_iff_closedBy hb (List.getElem?_eq_some_iff.mp hn).1).mp rfl
  · rintro ⟨kind, hc, -⟩
    exact Option.isSome_iff_exists.mpr ⟨kind, hc⟩

/-- A block that is not ended runs to the end. -/
theorem stop_eq_length_iff : b.stop = nodes.length ↔ ¬ b.isEnded nodes = true := by
  rw [isEnded_iff_closedBy hb]
  constructor
  · intro h hclosed
    have := hclosed.lt_length
    omega
  · intro h
    have hle := stop_le_length hb
    by_contra hne
    exact h ((stop_eq_iff_closedBy hb (by omega)).mp rfl)

end Ended

/-- The pairs of opener and closer are those of the ended blocks. -/
theorem closings_perm_ended (nodes : List Node) :
    (outline nodes).closings.Perm
      (((blocks nodes).filter (Block.isEnded nodes)).map fun b => (b.start, b.stop)) := by
  have hnodup : (((blocks nodes).filter (Block.isEnded nodes)).map
      fun b => (b.start, b.stop)).Nodup := by
    refine List.pairwise_map.mpr (((blocks_in_order nodes).filter _).imp ?_)
    intro b c hlt heq
    have := congrArg Prod.fst heq
    omega
  -- Both lists hold each pair once, so it is enough that they hold the same pairs.
  refine (List.perm_ext_iff_of_nodup (closings_nodup nodes) hnodup).mpr ?_
  rintro ⟨i, j⟩
  rw [mem_closings_iff, List.mem_map]
  constructor
  · intro hclosed
    obtain ⟨kind, hopener⟩ := hclosed.isOpen.opener
    obtain ⟨b, hb, rfl⟩ := mem_blocks_of_opener hopener
    obtain rfl := (stop_eq_iff_closedBy hb hclosed.lt_length).mpr hclosed
    exact ⟨b, List.mem_filter.mpr ⟨hb, (isEnded_iff_closedBy hb).mpr hclosed⟩, rfl⟩
  · rintro ⟨b, hb, heq⟩
    obtain ⟨hb, hended⟩ := List.mem_filter.mp hb
    obtain ⟨rfl, rfl⟩ := Prod.mk.inj heq
    exact (isEnded_iff_closedBy hb).mp hended

theorem countP_isEnded (nodes : List Node) :
    (blocks nodes).countP (Block.isEnded nodes) = (outline nodes).closings.length := by
  rw [(closings_perm_ended nodes).length_eq, List.length_map, List.countP_eq_length_filter]

theorem length_blocks (nodes : List Node) :
    (blocks nodes).length = nodes.countP fun n => (opensBlock? n).isSome := by
  rw [blocks_eq_openedFrom, (openedFrom_openers 0 (blockStop nodes) nodes).length_eq, openers,
    List.countP_eq_length_filter]

/-- The variables without a value that the lists of a spec refer to, in the order of the lists. -/
def KeywordSpec.unknownNames (spec : KeywordSpec) : List String :=
  [spec.options.source, spec.singleValue.source, spec.multiValue.source].filterMap
    ListSource.unresolved?

/-- A body reports the unknown variables of its specs in their order, and nothing about blocks. -/
structure Resolution.ReportsUnknown (r : Resolution) : Prop where
  stage : ∀ e ∈ r.events, e.stage = .resolving
  unknown : r.events.filterMap Event.unknown? = r.specs.flatMap KeywordSpec.unknownNames

theorem reportsUnknown_empty : Resolution.empty.ReportsUnknown := ⟨by simp [Resolution.empty], rfl⟩

theorem Resolution.ReportsUnknown.append {r t : Resolution} (hr : r.ReportsUnknown)
    (ht : t.ReportsUnknown) : (r.append t).ReportsUnknown := by
  constructor
  · intro e he
    rcases List.mem_append.mp he with he | he
    · exact hr.stage e he
    · exact ht.stage e he
  · simp only [Resolution.append, List.filterMap_append, List.flatMap_append, hr.unknown,
      ht.unknown]

theorem resolveCall_reportsUnknown (context : Context) (policy : Requiredness)
    (command : Invocation) : (context.resolveCall policy command).ReportsUnknown := by
  unfold Context.resolveCall
  split
  next spec _ =>
    constructor
    · intro e he
      obtain ⟨name, -, rfl⟩ := List.mem_map.mp he
      rfl
    · have hnames : (spec.unresolved.map Event.unknownList).filterMap Event.unknown? =
          spec.unresolved := by
        simp [List.filterMap_map, Function.comp_def, Event.unknown?]
      rw [hnames, List.flatMap_singleton]
      rfl
  next => exact ⟨by simp [Event.stage], rfl⟩

theorem resolve_reportsUnknown (context : Context) (policy : Requiredness)
    (command : Invocation) : (context.resolve policy command).ReportsUnknown := by
  rcases resolve_cases command with h | h
  · rw [h]
    exact reportsUnknown_empty
  · rw [h]
    exact resolveCall_reportsUnknown context policy command

theorem resolveFrom_reportsUnknown (policy : Requiredness) (context : Context)
    (commands : List Invocation) : (resolveFrom policy context commands).ReportsUnknown := by
  induction commands generalizing context with
  | nil => exact reportsUnknown_empty
  | cons command rest ih =>
    exact (resolve_reportsUnknown context policy command).append (ih _)

/-- What is reported behind the last node: at most the number of blocks left open. -/
def endingEvents (nodes : List Node) : List Event :=
  if (outline nodes).stillOpen.isEmpty then [] else [.leftOpen (outline nodes).stillOpen.length]

def bodyEvents (policy : Requiredness) (nodes : List Node) : List Event :=
  (blocks nodes).flatMap fun b => (b.resolution policy nodes).events

theorem events_eq_stages (policy : Requiredness) (nodes : List Node) :
    events policy nodes =
      (outline nodes).events ++ (endingEvents nodes ++ bodyEvents policy nodes) :=
  List.append_assoc ..

theorem stage_endingEvents (nodes : List Node) :
    ∀ e ∈ endingEvents nodes, e.stage = .ending := by
  unfold endingEvents
  split
  · simp
  · simp [Event.stage]

theorem stage_bodyEvents (policy : Requiredness) (nodes : List Node) :
    ∀ e ∈ bodyEvents policy nodes, e.stage = .resolving := by
  intro e he
  obtain ⟨b, -, he⟩ := List.mem_flatMap.mp he
  exact (resolveFrom_reportsUnknown policy .empty _).stage e he

/-- Reports about matching come from matching alone. -/
theorem countP_events {p : Event → Bool} (hp : ∀ e, e.stage ≠ .matching → p e = false)
    (policy : Requiredness) (nodes : List Node) :
    (events policy nodes).countP p = (outline nodes).events.countP p := by
  have hending : (endingEvents nodes).countP p = 0 := by
    refine List.countP_eq_zero.mpr fun e he => ?_
    simp [hp e (by simp [stage_endingEvents nodes e he])]
  have hbody : (bodyEvents policy nodes).countP p = 0 := by
    refine List.countP_eq_zero.mpr fun e he => ?_
    simp [hp e (by simp [stage_bodyEvents policy nodes e he])]
  rw [events_eq_stages, List.countP_append, List.countP_append, hending, hbody]
  rfl

/-- The number of blocks reported as left open, zero if none is reported. -/
def unclosedCount (es : List Event) : Nat := (es.findSome? Event.unclosed?).getD 0

theorem unclosedCount_events (policy : Requiredness) (nodes : List Node) :
    unclosedCount (events policy nodes) = (outline nodes).stillOpen.length := by
  have hmatching : (outline nodes).events.findSome? Event.unclosed? = none := by
    refine List.findSome?_eq_none_iff.mpr fun e he => unclosed?_eq_none ?_
    simp [stage_outlineFrom 0 [] nodes e he]
  have hbody : (bodyEvents policy nodes).findSome? Event.unclosed? = none := by
    refine List.findSome?_eq_none_iff.mpr fun e he => unclosed?_eq_none ?_
    simp [stage_bodyEvents policy nodes e he]
  rw [unclosedCount, events_eq_stages, List.findSome?_append, List.findSome?_append, hmatching,
    hbody, endingEvents]
  cases (outline nodes).stillOpen with
  | nil => rfl
  | cons b rest => rfl

theorem unknown_events (policy : Requiredness) (nodes : List Node) :
    (events policy nodes).filterMap Event.unknown? =
      (callables policy nodes).flatMap fun c => c.specs.flatMap KeywordSpec.unknownNames := by
  have hmatching : (outline nodes).events.filterMap Event.unknown? = [] := by
    refine List.filterMap_eq_nil_iff.mpr fun e he => unknown?_eq_none ?_
    simp [stage_outlineFrom 0 [] nodes e he]
  have hending : (endingEvents nodes).filterMap Event.unknown? = [] := by
    refine List.filterMap_eq_nil_iff.mpr fun e he => unknown?_eq_none ?_
    simp [stage_endingEvents nodes e he]
  rw [events_eq_stages, List.filterMap_append, List.filterMap_append, hmatching, hending,
    List.nil_append, List.nil_append, bodyEvents, List.filterMap_flatMap, callables,
    List.flatMap_map]
  congr 1
  funext b
  exact (resolveFrom_reportsUnknown policy .empty _).unknown

/-- The number of nodes that close blocks. -/
def closerCount (nodes : List Node) : Nat := nodes.countP fun n => (closesBlock? n).isSome

/-- They are the commands named `endfunction` or `endmacro`, in any letter case. -/
theorem closerCount_eq (nodes : List Node) :
    closerCount nodes = (invocations nodes).countP fun command =>
      lowerAscii command.name = "endfunction".toList ∨
        lowerAscii command.name = "endmacro".toList := by
  have hfunction : "end" ++ BlockKind.functionBlock.word = "endfunction" := rfl
  have hmacro : "end" ++ BlockKind.macroBlock.word = "endmacro" := rfl
  have hcloses (command : Invocation) :
      (closesBlock? (.invocation command)).isSome ↔
        lowerAscii command.name = "endfunction".toList ∨
          lowerAscii command.name = "endmacro".toList := by
    rw [Option.isSome_iff_exists, ← hfunction, ← hmacro]
    simp only [closesBlock?_eq_some_iff, Node.invocation.injEq, exists_eq_left']
    constructor
    · rintro ⟨_ | _, hname⟩
      · exact .inl hname
      · exact .inr hname
    · rintro (hname | hname)
      · exact ⟨_, hname⟩
      · exact ⟨_, hname⟩
  rw [closerCount, invocations, List.countP_filterMap]
  apply List.countP_congr
  rintro (command | text | line) _
  · rw [hcloses, Node.invocation?, Option.map_some, Option.getD_some, decide_eq_true_iff]
  · exact Iff.rfl
  · exact Iff.rfl

/-- The reports of an analysis add up to its result. -/
structure ReportsAgree (policy : Requiredness) (nodes : List Node) (es : List Event) : Prop where
  /-- Each callable is reported as found, and nothing else is. -/
  found : es.countP Event.isFound = (callables policy nodes).length
  /-- A block found is ended by a closer that is no stray, given up or left open. -/
  conserved : es.countP Event.isStray ≤ closerCount nodes ∧
    es.countP Event.isFound =
      (closerCount nodes - es.countP Event.isStray) + es.countP Event.isDiscard + unclosedCount es
  /-- The blocks, one for each callable, stop at those closers or run to the end. -/
  ended : (blocks nodes).countP (Block.isEnded nodes) =
    closerCount nodes - es.countP Event.isStray
  endless : (blocks nodes).countP (fun b => b.stop = nodes.length) =
    es.countP Event.isDiscard + unclosedCount es
  /-- Unknown variables are reported in the order of the callables, their specs and the lists. -/
  unknown : es.filterMap Event.unknown? =
    (callables policy nodes).flatMap fun c => c.specs.flatMap KeywordSpec.unknownNames

/-- Blocks that are not ended are those that run to the end. -/
theorem countP_endless (nodes : List Node) :
    (blocks nodes).length =
      (blocks nodes).countP (Block.isEnded nodes) +
        (blocks nodes).countP fun b => b.stop = nodes.length := by
  have hendless : (blocks nodes).countP (fun b => b.stop = nodes.length) =
      (blocks nodes).countP fun b => ¬ b.isEnded nodes = true := by
    apply List.countP_congr
    intro b hb
    rw [decide_eq_true_iff, decide_eq_true_iff]
    exact stop_eq_length_iff hb
  rw [hendless]
  exact List.length_eq_countP_add_countP (Block.isEnded nodes)

/-- For any nodes, balanced or not, the reports of the analysis agree with its result. -/
theorem events_reportsAgree (policy : Requiredness) (nodes : List Node) :
    ReportsAgree policy nodes (events policy nodes) := by
  have hbalance : (outline nodes).Balances [] nodes := outlineFrom_balances 0 [] nodes
  obtain ⟨hopeners, hclosers, hblocks⟩ := hbalance
  have hfound := countP_events (fun e he => (silent_of_stage he).1) policy nodes
  have hdiscard := countP_events (fun e he => (silent_of_stage he).2.1) policy nodes
  have hstray := countP_events (fun e he => (silent_of_stage he).2.2) policy nodes
  have hunclosed := unclosedCount_events policy nodes
  have hended := countP_isEnded nodes
  have hlength := length_blocks nodes
  have hendless := countP_endless nodes
  -- What is left is arithmetic on the balance of a run that starts with no open block.
  rw [List.length_nil] at hblocks
  change _ = closerCount nodes at hclosers
  refine ⟨?_, ⟨?_, ?_⟩, ?_, ?_, unknown_events policy nodes⟩
  · rw [callables, List.length_map]
    omega
  · omega
  · omega
  · omega
  · omega

/-- A stray closer, a macro that the closer of its function gives up, and a function left open. -/
example :
    let nodes := [bareCall "endmacro" [], bareCall "function" ["f"], bareCall "macro" ["m"],
      bareCall "endfunction" [], bareCall "function" ["g"]]
    let es := events .never nodes
    (es.countP Event.isFound, closerCount nodes, es.countP Event.isStray,
      es.countP Event.isDiscard, unclosedCount es) = (3, 2, 1, 1, 1) := by decide +kernel

end CMakeManual.Manual
