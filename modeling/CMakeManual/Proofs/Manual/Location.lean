import CMakeManual.Proofs.Manual.Locality
import CMakeManual.Proofs.Script.Location

/-! Where a script says what it says. Tokens, nodes, callables and faults are on the line that the
source shows at their first byte, and callables come in the order of these lines. -/
namespace CMakeManual.Manual
open Text Script Vocabulary

/-- The nodes that open a named block, in order. -/
def openers (nodes : List Node) : List Node := nodes.filter fun n => (opensBlock? n).isSome

/-- The command that a block with this head opens with. -/
structure Opens (c : Invocation) (kind : BlockKind) (name : String) (parameters : List String) :
    Prop where
  role : Role.ofName? c.name = some (.opens kind)
  arguments : c.arguments.map Argument.text = name :: parameters

theorem opens_of_openedBlock? {start stop : Nat} {n : Node} {b : Block}
    (h : openedBlock? start stop n = some b) :
    ∃ c, n = .invocation c ∧ Opens c b.kind b.name b.parameters ∧ b.line = c.line := by
  cases n with
  | comment text => simp [openedBlock?] at h
  | blankLine line => simp [openedBlock?] at h
  | invocation c =>
    simp only [openedBlock?] at h
    split at h
    next kind name parameters hr ha =>
      obtain rfl := Option.some.inj h
      exact ⟨c, rfl, ⟨hr, by rw [ha]; rfl⟩, rfl⟩
    next => simp at h

/-- Each block belongs to one opener, in order. -/
theorem openedFrom_openers (index : Nat) (stop : Nat → Nat) (ns : List Node) :
    List.Forall₂ (fun b n => ∃ c, n = .invocation c ∧ Opens c b.kind b.name b.parameters ∧
      b.line = c.line) (openedFrom index stop ns) (openers ns) := by
  induction ns generalizing index with
  | nil => exact .nil
  | cons n ns ih =>
    rw [openedFrom_cons]
    rcases openedBlock?_cases n with ⟨hn, ho⟩ | ⟨kind, name, parameters, line, hn, ho⟩
    · simpa [ho, openers, hn] using ih (index + 1)
    · have hfirst := opens_of_openedBlock? (ho index (stop index))
      rw [ho, openers, List.filter_cons_of_pos (by simp [hn])]
      exact .cons hfirst (ih (index + 1))

/-- The callable is declared by this node, a command, and is on the line of its first byte. -/
def Callable.DeclaredAt (source : String) (d : Callable) (n : Node) : Prop :=
  ∃ c, n = .invocation c ∧ Opens c d.kind d.name d.parameters ∧
    d.line = lineAt source c.span.start

theorem callables_declaredAt {source : String} {ns : List Node} (h : readScript source = .ok ns)
    (policy : Requiredness) :
    List.Forall₂ (Callable.DeclaredAt source) (callables policy ns) (openers ns) := by
  have hmem : ∀ n ∈ openers ns, n ∈ ns := fun n hn => (List.mem_filter.mp hn).1
  have hblocks := openedFrom_openers 0 (blockStop ns) ns
  rw [callables, blocks_eq_openedFrom, List.forall₂_map_left_iff]
  generalize openedFrom 0 (blockStop ns) ns = bs, openers ns = os at hblocks hmem ⊢
  induction hblocks with
  | nil => exact .nil
  | cons hb _ ih =>
    obtain ⟨c, rfl, ho, hl⟩ := hb
    refine .cons ⟨c, rfl, ho, ?_⟩ (ih fun n hn => hmem n (by simp [hn]))
    rw [← command_line h (hmem _ (by simp))]
    exact hl

/-- Callables come in the order of their lines. -/
theorem callables_lines {source : String} {ns : List Node} (h : readScript source = .ok ns)
    (policy : Requiredness) : ((callables policy ns).map Callable.line).Pairwise (· ≤ ·) := by
  have hlines : (callables policy ns).map Callable.line = (openers ns).map Node.line := by
    rw [callables, blocks_eq_openedFrom, ← List.forall₂_eq_eq_eq, List.forall₂_map_left_iff,
      List.forall₂_map_left_iff, List.forall₂_map_right_iff]
    apply (openedFrom_openers 0 (blockStop ns) ns).imp
    rintro b n ⟨c, rfl, -, hl⟩
    exact hl
  rw [hlines]
  exact (nodes_lines h).sublist (List.filter_sublist.map Node.line)

theorem callablesOf_eq_ok {policy : Requiredness} {source : String} {ds : List Callable} :
    callablesOf policy source = .ok ds ↔
      ∃ ns, readScript source = .ok ns ∧ ds = callables policy ns := by
  cases h : readScript source <;> simp [callablesOf, h, Except.map, eq_comm]

/-- Everything that a script is read as has its place in the source. -/
structure LocatedExactly (source : String) : Prop where
  tokens : ∀ ts, scan source = .ok ts → ∀ t ∈ ts, t.line = lineAt source t.span.start
  /-- Each node is on the line of the token it starts with, and these tokens stand one behind the
  other. A command reaches from its name to a closing parenthesis. -/
  nodes : ∀ ns, readScript source = .ok ns → ∃ items, NodesStartWith source ns items
  callables : ∀ policy ds, callablesOf policy source = .ok ds →
    ∃ ns, readScript source = .ok ns ∧
      List.Forall₂ (Callable.DeclaredAt source) ds (openers ns) ∧
      (ds.map Callable.line).Pairwise (· ≤ ·)
  faults : ∀ fs, readScript source = .error fs → ∀ f ∈ fs, f.IsPlaced source

/-- Places are exact in every script. -/
theorem script_locatedExactly (source : String) : LocatedExactly source where
  tokens _ h t ht := (token_textAt h t ht).line_eq
  nodes _ h := nodes_startWith h
  callables policy ds h := by
    obtain ⟨ns, hr, rfl⟩ := callablesOf_eq_ok.mp h
    exact ⟨ns, hr, callables_declaredAt hr policy, callables_lines hr policy⟩
  faults _ h := faults_isPlaced h

/-- A byte order mark, a comment and an argument over two lines each, and wide characters. -/
def spreadScript : String :=
  "\ufeff#[[\u00e9\n]]\nset(a \x22\u00e9\n\x22)\nfunction(f\n x) #\nmacro(g)"

/-- Two names without parentheses and a command that is not closed, behind wide characters. -/
def faultyScript : String := "#[[\n\u00e9]] f #\nf\ng(\u00e9(\n"

theorem script_locatedExactly_spread :
    callablesOf .never spreadScript =
      .ok [⟨.functionBlock, "f", ["x"], "", 5, []⟩, ⟨.macroBlock, "g", [], "", 7, []⟩] ∧
    LocatedExactly spreadScript ∧
    readScript faultyScript =
      .error [⟨.missingOpenParen "f", ⟨9, 10⟩, 2⟩, ⟨.missingOpenParen "f", ⟨13, 14⟩, 3⟩,
        ⟨.unterminatedInvocation "g", ⟨15, 21⟩, 4⟩] ∧
    LocatedExactly faultyScript :=
  ⟨by decide +kernel, script_locatedExactly _, by decide +kernel, script_locatedExactly _⟩

end CMakeManual.Manual
