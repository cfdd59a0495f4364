import CMakeManual.Manual.Block
import Mathlib.Data.List.TakeWhile

/-! How matching runs. What one node does to the open blocks is said once, in
`nodeOutline_cases`; frame, renumbering and bounds follow from it for a whole run. -/
namespace CMakeManual.Manual
open Text Script Vocabulary

/-- The kind of the named block that a node opens. -/
def opensBlock? (n : Node) : Option BlockKind :=
  n.invocation?.bind fun command =>
    match Role.ofName? command.name, command.arguments with
    | some (.opens kind), _ :: _ => some kind
    | _, _ => none

/-- The kind of the block that a node closes. -/
def closesBlock? (n : Node) : Option BlockKind :=
  n.invocation?.bind fun command =>
    match Role.ofName? command.name with
    | some (.closes kind) => some kind
    | _ => none

/-- A block is opened by a command that has the name of its kind, in any letter case, and an
argument for the name of the block. -/
theorem opensBlock?_eq_some_iff {n : Node} {kind : BlockKind} :
    opensBlock? n = some kind ↔ ∃ command, n = .invocation command ∧
      lowerAscii command.name = kind.word.toList ∧ command.arguments ≠ [] := by
  have hword : (Role.opens kind).canonical = kind.word := by cases kind <;> rfl
  simp only [← hword, ← Role.ofName?_eq_some_iff, opensBlock?, Option.bind_eq_some_iff,
    Node.invocation?_eq_some_iff]
  refine exists_congr fun command => and_congr_right fun _ => ?_
  split
  next other _ _ hrole hargs => simp [hrole, hargs]
  next hother =>
    refine iff_of_false (by simp) ?_
    rintro ⟨hrole, hargs⟩
    obtain ⟨name, parameters, hcons⟩ := List.exists_cons_of_ne_nil hargs
    exact hother kind name parameters hrole hcons

/-- A block is closed by a command that has the name of its kind behind `end`, in any letter
case. -/
theorem closesBlock?_eq_some_iff {n : Node} {kind : BlockKind} :
    closesBlock? n = some kind ↔ ∃ command, n = .invocation command ∧
      lowerAscii command.name = ("end" ++ kind.word).toList := by
  have hword : (Role.closes kind).canonical = "end" ++ kind.word := by cases kind <;> rfl
  simp only [← hword, ← Role.ofName?_eq_some_iff, closesBlock?, Option.bind_eq_some_iff,
    Node.invocation?_eq_some_iff]
  refine exists_congr fun command => and_congr_right fun _ => ?_
  split
  next other hrole => simp [hrole]
  next hother => exact iff_of_false (by simp) (hother kind)

def Event.isDiscard : Event → Bool
  | .discarded .. => true
  | _ => false

def Event.isStray : Event → Bool
  | .strayCloser .. => true
  | _ => false

/-- Neither a block given up nor a closer without its opener is reported. -/
def Undisturbed (events : List Event) : Prop :=
  ∀ e ∈ events, e.isDiscard = false ∧ e.isStray = false

theorem undisturbed_append {es fs : List Event} :
    Undisturbed (es ++ fs) ↔ Undisturbed es ∧ Undisturbed fs := by
  simp only [Undisturbed, List.mem_append, or_imp, forall_and]
  constructor
  · rintro ⟨⟨h1, h2⟩, h3, h4⟩
    exact ⟨⟨h1, h3⟩, h2, h4⟩
  · rintro ⟨⟨h1, h3⟩, h2, h4⟩
    exact ⟨⟨h1, h2⟩, h3, h4⟩

/-- What one node can do: open a block, close one, or leave the open blocks as they are. -/
theorem nodeOutline_cases (n : Node) :
    (∃ kind e, opensBlock? n = some kind ∧ closesBlock? n = none ∧ Undisturbed [e] ∧
      ∀ index stack, nodeOutline index stack n = ⟨[], ⟨kind, index⟩ :: stack, [e]⟩) ∨
    (∃ kind line, opensBlock? n = none ∧ closesBlock? n = some kind ∧
      ∀ index stack, nodeOutline index stack n = closeBlock index line kind stack) ∨
    (∃ es, opensBlock? n = none ∧ closesBlock? n = none ∧ Undisturbed es ∧
      ∀ index stack, nodeOutline index stack n = ⟨[], stack, es⟩) := by
  cases hn : n.invocation? with
  | none =>
    refine .inr (.inr ⟨[], ?_⟩)
    simp [opensBlock?, closesBlock?, nodeOutline, hn, Undisturbed]
  | some command =>
    cases hr : Role.ofName? command.name with
    | none =>
      refine .inr (.inr ⟨[], ?_⟩)
      simp [opensBlock?, closesBlock?, nodeOutline, commandOutline, hn, hr, Undisturbed]
    | some role =>
      cases role with
      | opens kind =>
        cases ha : command.arguments with
        | nil =>
          refine .inr (.inr ⟨[.unnamedBlock command.line kind], ?_⟩)
          simp [opensBlock?, closesBlock?, nodeOutline, commandOutline, hn, hr, ha, Undisturbed,
            Event.isDiscard, Event.isStray]
        | cons name parameters =>
          refine .inl ⟨kind, .found name.text command.line kind, ?_⟩
          simp [opensBlock?, closesBlock?, nodeOutline, commandOutline, hn, hr, ha, Undisturbed,
            Event.isDiscard, Event.isStray]
      | closes kind =>
        refine .inr (.inl ⟨kind, command.line, ?_⟩)
        simp [opensBlock?, closesBlock?, nodeOutline, commandOutline, hn, hr]
      | assigns =>
        refine .inr (.inr ⟨[], ?_⟩)
        simp [opensBlock?, closesBlock?, nodeOutline, commandOutline, hn, hr, Undisturbed]
      | parsesArguments =>
        refine .inr (.inr ⟨[], ?_⟩)
        simp [opensBlock?, closesBlock?, nodeOutline, commandOutline, hn, hr, Undisturbed]

/-- A closer ends the innermost block of its kind and gives up those above it. -/
theorem closeBlock_found {kind : BlockKind} {lost outer : List OpenBlock} {closed : OpenBlock}
    (hl : ∀ b ∈ lost, b.kind ≠ kind) (hc : closed.kind = kind) (index line : Nat) :
    closeBlock index line kind (lost ++ closed :: outer) =
      ⟨[(closed.start, index)], outer, lost.map fun b => .discarded b.kind kind⟩ := by
  have hp : ∀ b ∈ lost, (b.kind != kind) = true := by simpa using hl
  simp [closeBlock, givenUp, fromClosed, List.takeWhile_append_of_pos hp,
    List.dropWhile_append_of_pos hp, hc]

/-- A closer without a block of its kind empties the stack. -/
theorem closeBlock_stray {kind : BlockKind} {stack : List OpenBlock}
    (h : ∀ b ∈ stack, b.kind ≠ kind) (index line : Nat) :
    closeBlock index line kind stack =
      ⟨[], [], (stack.map fun b => .discarded b.kind kind) ++ [.strayCloser line kind]⟩ := by
  have hp : ∀ b ∈ stack, (b.kind != kind) = true := by simpa using h
  have ht : stack.takeWhile (fun b => b.kind != kind) = stack := List.takeWhile_eq_self_iff.2 hp
  have hd : stack.dropWhile (fun b => b.kind != kind) = [] := List.dropWhile_eq_nil_iff.2 hp
  simp [closeBlock, givenUp, fromClosed, ht, hd]

theorem stack_cases (kind : BlockKind) (stack : List OpenBlock) :
    (∃ lost closed outer, stack = lost ++ closed :: outer ∧ (∀ b ∈ lost, b.kind ≠ kind) ∧
      closed.kind = kind) ∨ ∀ b ∈ stack, b.kind ≠ kind := by
  induction stack with
  | nil => simp
  | cons b stack ih =>
    by_cases hb : b.kind = kind
    · exact .inl ⟨[], b, stack, rfl, by simp, hb⟩
    · rcases ih with ⟨lost, closed, outer, rfl, hl, hc⟩ | h
      · exact .inl ⟨b :: lost, closed, outer, rfl, by simpa [hb] using hl, hc⟩
      · exact .inr (by simpa [hb] using h)

/-- The same matching above further open blocks. -/
def Outline.over (base : List OpenBlock) (o : Outline) : Outline :=
  { o with stillOpen := o.stillOpen ++ base }

/-- A closer that finds its block does not look further. -/
theorem closeBlock_over {index line : Nat} {kind : BlockKind} {stack : List OpenBlock}
    (h : ∀ e ∈ (closeBlock index line kind stack).events, e.isStray = false)
    (base : List OpenBlock) :
    closeBlock index line kind (stack ++ base) = (closeBlock index line kind stack).over base := by
  rcases stack_cases kind stack with ⟨lost, closed, outer, rfl, hl, hc⟩ | hs
  · rw [List.append_assoc, List.cons_append, closeBlock_found hl hc, closeBlock_found hl hc]
    rfl
  · rw [closeBlock_stray hs] at h
    have := h (.strayCloser line kind) (by simp)
    simp [Event.isStray] at this

theorem nodeOutline_over {index : Nat} {stack : List OpenBlock} {n : Node}
    (h : ∀ e ∈ (nodeOutline index stack n).events, e.isStray = false) (base : List OpenBlock) :
    nodeOutline index (stack ++ base) n = (nodeOutline index stack n).over base := by
  rcases nodeOutline_cases n with
    ⟨kind, e, -, -, -, hn⟩ | ⟨kind, line, -, -, hn⟩ | ⟨es, -, -, -, hn⟩
  · rw [hn, hn]
    rfl
  · rw [hn] at h
    rw [hn, hn, closeBlock_over h]
  · rw [hn, hn]
    rfl

/-- As long as every closer finds its block, the blocks below are not touched. -/
theorem outlineFrom_over {index : Nat} {stack : List OpenBlock} {ns : List Node}
    (h : ∀ e ∈ (outlineFrom index stack ns).events, e.isStray = false) (base : List OpenBlock) :
    outlineFrom index (stack ++ base) ns = (outlineFrom index stack ns).over base := by
  induction ns generalizing index stack with
  | nil => rfl
  | cons n ns ih =>
    simp only [outlineFrom, List.mem_append, or_imp, forall_and] at h
    simp only [outlineFrom, nodeOutline_over h.1]
    simp only [Outline.over, ih h.2]

def OpenBlock.renumber (f : Nat → Nat) (b : OpenBlock) : OpenBlock := { b with start := f b.start }

/-- The same matching with the nodes in other places. -/
def Outline.renumber (f : Nat → Nat) (o : Outline) : Outline :=
  { closings := o.closings.map (Prod.map f f)
    stillOpen := o.stillOpen.map (OpenBlock.renumber f)
    events := o.events }

theorem closeBlock_renumber (f : Nat → Nat) (index line : Nat) (kind : BlockKind)
    (stack : List OpenBlock) :
    closeBlock (f index) line kind (stack.map (OpenBlock.renumber f)) =
      (closeBlock index line kind stack).renumber f := by
  rcases stack_cases kind stack with ⟨lost, closed, outer, rfl, hl, hc⟩ | hs
  · have hl' : ∀ b ∈ lost.map (OpenBlock.renumber f), b.kind ≠ kind := by
      simpa [OpenBlock.renumber] using hl
    have hc' : (closed.renumber f).kind = kind := hc
    rw [List.map_append, List.map_cons, closeBlock_found hl' hc', closeBlock_found hl hc]
    simp [Outline.renumber, OpenBlock.renumber]
  · have hs' : ∀ b ∈ stack.map (OpenBlock.renumber f), b.kind ≠ kind := by
      simpa [OpenBlock.renumber] using hs
    rw [closeBlock_stray hs', closeBlock_stray hs]
    simp [Outline.renumber, OpenBlock.renumber]

theorem nodeOutline_renumber (f : Nat → Nat) (index : Nat) (stack : List OpenBlock) (n : Node) :
    nodeOutline (f index) (stack.map (OpenBlock.renumber f)) n =
      (nodeOutline index stack n).renumber f := by
  rcases nodeOutline_cases n with
    ⟨kind, e, -, -, -, hn⟩ | ⟨kind, line, -, -, hn⟩ | ⟨es, -, -, -, hn⟩
  · rw [hn, hn]
    rfl
  · rw [hn, hn, closeBlock_renumber]
  · rw [hn, hn]
    rfl

/-- Matching depends on the order of the nodes alone, not on their places. -/
theorem outlineFrom_renumber {f : Nat → Nat} {index start : Nat}
    (hf : ∀ k, f (index + k) = start + k) (stack : List OpenBlock) (ns : List Node) :
    outlineFrom start (stack.map (OpenBlock.renumber f)) ns =
      (outlineFrom index stack ns).renumber f := by
  induction ns generalizing index start stack with
  | nil => rfl
  | cons n ns ih =>
    have h0 : f index = start := hf 0
    have h1 : ∀ k, f (index + 1 + k) = start + 1 + k := by
      intro k
      rw [Nat.add_assoc, hf, Nat.add_assoc]
    simp only [outlineFrom, ← h0, nodeOutline_renumber]
    simp only [Outline.renumber, h0, ih h1, List.map_append]

/-- All places lie before `stop`, and an opener stands before its closer. -/
def Outline.Within (stop : Nat) (o : Outline) : Prop :=
  (∀ c ∈ o.closings, c.1 < c.2 ∧ c.2 < stop) ∧ ∀ b ∈ o.stillOpen, b.start < stop

theorem closeBlock_within {index : Nat} {stack : List OpenBlock}
    (h : ∀ b ∈ stack, b.start < index) (line : Nat) (kind : BlockKind) :
    (closeBlock index line kind stack).Within (index + 1) := by
  rcases stack_cases kind stack with ⟨lost, closed, outer, rfl, hl, hc⟩ | hs
  · rw [closeBlock_found hl hc]
    constructor
    · have := h closed (by simp)
      simpa using this
    · intro b hb
      have := h b (by simp [show b ∈ outer from hb])
      omega
  · rw [closeBlock_stray hs]
    exact ⟨by simp, by simp⟩

theorem nodeOutline_within {index : Nat} {stack : List OpenBlock}
    (h : ∀ b ∈ stack, b.start < index) (n : Node) :
    (nodeOutline index stack n).Within (index + 1) := by
  rcases nodeOutline_cases n with
    ⟨kind, e, -, -, -, hn⟩ | ⟨kind, line, -, -, hn⟩ | ⟨es, -, -, -, hn⟩
  · rw [hn]
    refine ⟨by simp, ?_⟩
    intro b hb
    rcases List.mem_cons.1 hb with rfl | hb
    · exact Nat.lt_succ_self index
    · exact Nat.lt_succ_of_lt (h b hb)
  · rw [hn]
    exact closeBlock_within h line kind
  · rw [hn]
    exact ⟨by simp, fun b hb => Nat.lt_succ_of_lt (h b hb)⟩

theorem outlineFrom_within {index : Nat} {stack : List OpenBlock}
    (h : ∀ b ∈ stack, b.start < index) (ns : List Node) :
    (outlineFrom index stack ns).Within (index + ns.length) := by
  induction ns generalizing index stack with
  | nil => exact ⟨by simp [outlineFrom], h⟩
  | cons n ns ih =>
    have h1 := nodeOutline_within h n
    have h2 := ih h1.2
    have hlen : index + (n :: ns).length = index + 1 + ns.length := by
      rw [List.length_cons]
      omega
    rw [hlen]
    refine ⟨?_, h2.2⟩
    intro c hc
    rcases List.mem_append.1 hc with hc | hc
    · have := h1.1 c hc
      omega
    · exact h2.1 c hc

/-- A whole script speaks of its own nodes only. -/
theorem outline_within (ns : List Node) : (outline ns).Within ns.length := by
  have h : (outline ns).Within (0 + ns.length) := outlineFrom_within (by simp) ns
  rwa [Nat.zero_add] at h

/-- The block that opens at `start` has its closer or is still open. -/
def Outline.Accounts (start : Nat) (o : Outline) : Prop :=
  (∃ stop, (start, stop) ∈ o.closings) ∨ ∃ b ∈ o.stillOpen, b.start = start

/-- No open block is lost unless that is reported. -/
theorem nodeOutline_accounts {index : Nat} {stack : List OpenBlock} {n : Node}
    (h : Undisturbed (nodeOutline index stack n).events) {b : OpenBlock} (hb : b ∈ stack) :
    (nodeOutline index stack n).Accounts b.start := by
  rcases nodeOutline_cases n with
    ⟨kind, e, -, -, -, hn⟩ | ⟨kind, line, -, -, hn⟩ | ⟨es, -, -, -, hn⟩
  · rw [hn]
    exact .inr ⟨b, List.mem_cons_of_mem _ hb, rfl⟩
  · rw [hn] at h ⊢
    rcases stack_cases kind stack with ⟨lost, closed, outer, rfl, hl, hc⟩ | hs
    · rw [closeBlock_found hl hc] at h ⊢
      have hlost : lost = [] := by
        apply List.eq_nil_iff_forall_not_mem.2
        intro x hx
        have := (h (.discarded x.kind kind) (List.mem_map_of_mem hx)).1
        simp [Event.isDiscard] at this
      subst hlost
      rcases List.mem_cons.1 hb with rfl | hb
      · exact .inl ⟨index, by simp⟩
      · exact .inr ⟨b, hb, rfl⟩
    · rw [closeBlock_stray hs] at h
      have := (h (.strayCloser line kind) (by simp)).2
      simp [Event.isStray] at this
  · rw [hn]
    exact .inr ⟨b, hb, rfl⟩

theorem outlineFrom_accounts {index : Nat} {stack : List OpenBlock} {ns : List Node}
    (h : Undisturbed (outlineFrom index stack ns).events) {b : OpenBlock} (hb : b ∈ stack) :
    (outlineFrom index stack ns).Accounts b.start := by
  induction ns generalizing index stack b with
  | nil => exact .inr ⟨b, hb, rfl⟩
  | cons n ns ih =>
    obtain ⟨h1, h2⟩ := undisturbed_append.1 h
    rcases nodeOutline_accounts h1 hb with ⟨stop, hs⟩ | ⟨c, hc, hcb⟩
    · exact .inl ⟨stop, List.mem_append_left _ hs⟩
    · rw [← hcb]
      rcases ih h2 hc with ⟨stop, hs⟩ | ho
      · exact .inl ⟨stop, List.mem_append_right _ hs⟩
      · exact .inr ho

/-- Every named opener of an undisturbed run has its closer or is still open. -/
theorem outlineFrom_accounts_opener {index : Nat} {stack : List OpenBlock} {ns : List Node}
    (h : Undisturbed (outlineFrom index stack ns).events) {i : Nat} {n : Node}
    (hn : ns[i]? = some n) {kind : BlockKind} (ho : opensBlock? n = some kind) :
    (outlineFrom index stack ns).Accounts (index + i) := by
  induction ns generalizing index stack i with
  | nil => simp at hn
  | cons m ns ih =>
    obtain ⟨-, h2⟩ := undisturbed_append.1 h
    have hrest : (outlineFrom (index + 1) (nodeOutline index stack m).stillOpen ns).Accounts
        (index + i) := by
      cases i with
      | zero =>
        obtain rfl : m = n := by simpa using hn
        have hin : (⟨kind, index⟩ : OpenBlock) ∈ (nodeOutline index stack m).stillOpen := by
          rcases nodeOutline_cases m with
            ⟨k, e, hk, -, -, hm⟩ | ⟨k, line, hk, -, -⟩ | ⟨es, hk, -, -, -⟩
          · obtain rfl : k = kind := by simpa [ho] using hk.symm
            simp [hm]
          · simp [ho] at hk
          · simp [ho] at hk
        exact outlineFrom_accounts h2 hin
      | succ i =>
        have hi : index + (i + 1) = index + 1 + i := by omega
        rw [hi]
        exact ih h2 (by simpa using hn)
    rcases hrest with ⟨stop, hs⟩ | hr
    · exact .inl ⟨stop, List.mem_append_right _ hs⟩
    · exact .inr hr

end CMakeManual.Manual
