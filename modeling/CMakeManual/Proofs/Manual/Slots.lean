import CMakeManual.Proofs.Manual.Ranges
import Mathlib.Data.List.Forall2

/-! Blocks found with slots. A block is registered when it opens, the stack remembers its slot in
the register, and a closer sets the end of the block in the slot that it takes off the stack. A
slot outside the register and a command without an entry have no answer; neither happens, and the
register ends up as `blocks`. -/
namespace CMakeManual.Manual
open Script Vocabulary

structure OpenSlot where
  kind : BlockKind
  slot : Nat

/-- The blocks found so far and the slots of those that are open, innermost first. -/
structure Register where
  found : List Block
  stack : List OpenSlot

/-- Takes slots off the stack up to the first of this kind. -/
def popSlot (kind : BlockKind) : List OpenSlot → Option Nat × List OpenSlot
  | [] => (none, [])
  | s :: stack => if s.kind = kind then (some s.slot, stack) else popSlot kind stack

/-- The entry for a role in the table of commands. -/
def entryFor? (role : Role) : Option Role := Role.all.find? fun entry => entry = role

namespace Register

/-- Closes the innermost open block of this kind, if there is one. -/
def close (r : Register) (kind : BlockKind) (index : Nat) : Option Register :=
  match popSlot kind r.stack with
  | (none, stack) => some { r with stack }
  | (some slot, stack) =>
      r.found[slot]?.map fun b => ⟨r.found.set slot { b with stop := index }, stack⟩

/-- Registers what the node at `index` opens or closes; a block runs to `total` until a closer
says otherwise. -/
def visit (r : Register) (total index : Nat) (n : Node) : Option Register :=
  match n with
  | .invocation command =>
      match Role.ofName? command.name with
      | none => some r
      | some role =>
          (entryFor? role).bind fun entry =>
            match entry, command.arguments with
            | .opens kind, name :: parameters =>
                some
                  { found := r.found ++ [⟨kind, name.text, parameters.map Argument.text,
                      command.line, index, total⟩]
                    stack := ⟨kind, r.found.length⟩ :: r.stack }
            | .closes kind, _ => r.close kind index
            | _, _ => some r
  | _ => some r

def visitFrom (r : Register) (total index : Nat) : List Node → Option Register
  | [] => some r
  | n :: ns => (r.visit total index n).bind fun r => r.visitFrom total (index + 1) ns

end Register

/-- The blocks of nodes, found with slots. -/
def slotBlocks (nodes : List Node) : Option (List Block) :=
  (Register.visitFrom ⟨[], []⟩ nodes.length 0 nodes).map Register.found

/-- Every role has its entry. -/
@[simp] theorem entryFor?_eq (role : Role) : entryFor? role = some role := by
  rcases role with (_ | _) | (_ | _) | _ | _ <;> rfl

/-- What a visit does: register a block, close one, or nothing. -/
theorem visit_cases (n : Node) :
    (∃ kind, opensBlock? n = some kind ∧ ∀ (r : Register) (total index : Nat),
      ∃ b, openedBlock? index total n = some b ∧
        r.visit total index n = some ⟨r.found ++ [b], ⟨kind, r.found.length⟩ :: r.stack⟩) ∨
    (∃ kind, closesBlock? n = some kind ∧ ∀ (r : Register) (total index : Nat),
      r.visit total index n = r.close kind index) ∨
    (opensBlock? n = none ∧ closesBlock? n = none ∧ ∀ (r : Register) (total index : Nat),
      r.visit total index n = some r) := by
  cases n with
  | comment text => exact .inr (.inr ⟨rfl, rfl, fun _ _ _ => rfl⟩)
  | blankLine line => exact .inr (.inr ⟨rfl, rfl, fun _ _ _ => rfl⟩)
  | invocation command =>
    simp only [opensBlock?, closesBlock?, openedBlock?, Node.invocation?, Option.bind_some,
      Register.visit]
    cases hr : Role.ofName? command.name with
    | none => simp
    | some role =>
      cases role with
      | opens kind =>
        cases ha : command.arguments with
        | nil => simp
        | cons name parameters => simp
      | closes kind => simp
      | assigns => simp
      | parsesArguments => simp

/-- The slot is that of the open block: it has its kind, and its place stands there. -/
def OpenSlot.Holds (starts : List Nat) (s : OpenSlot) (b : OpenBlock) : Prop :=
  s.kind = b.kind ∧ starts[s.slot]? = some b.start

theorem popSlot_found {starts : List Nat} {slots : List OpenSlot} {kind : BlockKind}
    {lost outer : List OpenBlock} {closed : OpenBlock}
    (h : List.Forall₂ (OpenSlot.Holds starts) slots (lost ++ closed :: outer))
    (hl : ∀ b ∈ lost, b.kind ≠ kind) (hk : closed.kind = kind) :
    ∃ (s : OpenSlot) (rest : List OpenSlot), popSlot kind slots = (some s.slot, rest) ∧
      s.Holds starts closed ∧
      List.Forall₂ (OpenSlot.Holds starts) rest outer := by
  induction lost generalizing slots with
  | nil =>
    cases h with
    | cons hs hrest => exact ⟨_, _, if_pos (hs.1.trans hk), hs, hrest⟩
  | cons b lost ih =>
    cases h with
    | @cons s _ slots _ hs hrest =>
      have hne : s.kind ≠ kind := fun he => hl b List.mem_cons_self (hs.1.symm.trans he)
      obtain ⟨t, rest, hpop, hheld, hleft⟩ :=
        ih hrest fun c hc => hl c (List.mem_cons_of_mem b hc)
      exact ⟨t, rest, (if_neg hne).trans hpop, hheld, hleft⟩

theorem popSlot_stray {starts : List Nat} {slots : List OpenSlot} {kind : BlockKind}
    {stack : List OpenBlock} (h : List.Forall₂ (OpenSlot.Holds starts) slots stack)
    (hs : ∀ b ∈ stack, b.kind ≠ kind) : popSlot kind slots = (none, []) := by
  induction h with
  | nil => rfl
  | @cons s b slots stack hheld _ ih =>
    have hne : s.kind ≠ kind := fun he => hs b List.mem_cons_self (hheld.1.symm.trans he)
    exact (if_neg hne).trans (ih fun c hc => hs c (List.mem_cons_of_mem b hc))

/-- Where the block at `i` stops as far as the nodes in front of `k` tell. -/
def stopBefore (nodes : List Node) (k i : Nat) : Nat :=
  ((outline (nodes.take k)).closings.lookup i).getD nodes.length

/-- The blocks registered in front of the node at `k`. -/
def foundBefore (nodes : List Node) (k : Nat) : List Block :=
  openedFrom 0 (stopBefore nodes k) (nodes.take k)

/-- The register in front of the node at `k`. -/
structure Register.Follows (nodes : List Node) (k : Nat) (r : Register) : Prop where
  found : r.found = foundBefore nodes k
  stack : List.Forall₂ (OpenSlot.Holds (r.found.map Block.start)) r.stack
    (outline (nodes.take k)).stillOpen

/-- Stops do not change what is registered otherwise. -/
theorem openedFrom_restop (index : Nat) (stop stop' : Nat → Nat) (ns : List Node) :
    openedFrom index stop' ns =
      (openedFrom index stop ns).map fun b => { b with stop := stop' b.start } := by
  induction ns generalizing index with
  | nil => rfl
  | cons n ns ih =>
    rw [openedFrom_cons, openedFrom_cons, List.map_append, ih]
    rcases openedBlock?_cases n with ⟨-, hn⟩ | ⟨kind, name, parameters, line, -, hn⟩
    · rw [hn, hn]
      rfl
    · rw [hn, hn]
      rfl

theorem openedFrom_starts (index : Nat) (stop stop' : Nat → Nat) (ns : List Node) :
    (openedFrom index stop' ns).map Block.start = (openedFrom index stop ns).map Block.start := by
  rw [openedFrom_restop index stop stop' ns, List.map_map]
  rfl

section Step
variable {nodes : List Node} {k : Nat} {n : Node} {r : Register}

theorem openedFrom_take_succ (hn : nodes[k]? = some n) (stop : Nat → Nat) :
    openedFrom 0 stop (nodes.take (k + 1)) =
      openedFrom 0 stop (nodes.take k) ++ (openedBlock? k (stop k) n).toList := by
  obtain ⟨hlt, rfl⟩ := List.getElem?_eq_some_iff.mp hn
  rw [List.take_succ_eq_append_getElem hlt, openedFrom_append, openedFrom_cons, Nat.zero_add,
    List.length_take, Nat.min_eq_left (Nat.le_of_lt hlt)]
  exact congrArg _ (List.append_nil _)

theorem openedBlock?_eq_none (h : opensBlock? n = none) (start stop : Nat) :
    openedBlock? start stop n = none := by
  rcases openedBlock?_cases n with ⟨-, hn⟩ | ⟨kind, name, parameters, line, hk, -⟩
  · exact hn start stop
  · simp [h] at hk

theorem start_of_openedBlock? {start stop : Nat} {b : Block}
    (h : openedBlock? start stop n = some b) : b.start = start ∧ b.stop = stop := by
  rcases openedBlock?_cases n with ⟨-, hn⟩ | ⟨kind, name, parameters, line, -, hn⟩
  · simp [hn] at h
  · rw [hn] at h
    rw [← Option.some.inj h]
    exact ⟨rfl, rfl⟩

theorem stop_of_mem_openedFrom {index : Nat} {stop : Nat → Nat} {ns : List Node} {b : Block}
    (h : b ∈ openedFrom index stop ns) : b.stop = stop b.start := by
  obtain ⟨⟨m, i⟩, -, hb⟩ := List.mem_filterMap.mp h
  obtain ⟨hstart, hstop⟩ := start_of_openedBlock? hb
  rw [hstart, hstop]

theorem stillOpen_take_succ (hn : nodes[k]? = some n) :
    (outline (nodes.take (k + 1))).stillOpen =
      (nodeOutline k (outline (nodes.take k)).stillOpen n).stillOpen := by
  rw [outline_take_succ hn]

/-- A node that closes nothing leaves the stops as they are. -/
theorem stopBefore_succ_of_no_closing (hn : nodes[k]? = some n)
    (h : (nodeOutline k (outline (nodes.take k)).stillOpen n).closings = []) :
    stopBefore nodes (k + 1) = stopBefore nodes k := by
  funext i
  rw [stopBefore, outline_take_succ hn]
  simp only [h, List.append_nil]
  rfl

/-- No block that opens at `k` or later has been closed in front of `k`. -/
theorem stopBefore_self (nodes : List Node) (k : Nat) : stopBefore nodes k k = nodes.length := by
  have hnone : (outline (nodes.take k)).closings.lookup k = none := by
    rw [List.lookup_eq_none_iff]
    intro c hc
    have hwithin := (outline_within (nodes.take k)).1 c hc
    have hlen := List.length_take_le k nodes
    simp only [bne_iff_ne, ne_eq]
    omega
  rw [stopBefore, hnone, Option.getD_none]

/-- A closer sets the stop of the block that it ends, and no other. -/
theorem stopBefore_succ_of_closing (hn : nodes[k]? = some n) {start : Nat}
    (h : (nodeOutline k (outline (nodes.take k)).stillOpen n).closings = [(start, k)])
    (hopen : IsOpen nodes k start) (i : Nat) :
    stopBefore nodes (k + 1) i = if i = start then k else stopBefore nodes k i := by
  have hk : k ≤ nodes.length := Nat.le_of_lt (List.getElem?_eq_some_iff.mp hn).1
  rw [stopBefore, outline_take_succ hn]
  simp only [h, List.lookup_append]
  by_cases hi : i = start
  · have hnone : (outline (nodes.take k)).closings.lookup start = none := by
      rw [List.lookup_eq_none_iff]
      rintro ⟨a, j⟩ hc
      simp only [bne_iff_ne, ne_eq]
      rintro rfl
      obtain ⟨hj, hclosed⟩ := ((outline_take_reaches hk).mem_closings _ j).mp hc
      exact not_isOpen_of_takenOff (.inl hclosed) hj hopen
    rw [hi, if_pos rfl, hnone, Option.none_or, List.lookup_cons_self, Option.getD_some]
  · rw [if_neg hi, List.lookup_cons, beq_eq_false_iff_ne.mpr hi]
    exact congrArg (Option.getD · _) (Option.or_none ..)

theorem foundBefore_succ_of_no_opener (hn : nodes[k]? = some n) (ho : opensBlock? n = none) :
    foundBefore nodes (k + 1) = openedFrom 0 (stopBefore nodes (k + 1)) (nodes.take k) := by
  rw [foundBefore, openedFrom_take_succ hn, openedBlock?_eq_none ho, Option.toList_none,
    List.append_nil]

theorem Register.Follows.opened (h : r.Follows nodes k) (hn : nodes[k]? = some n) {kind : BlockKind}
    (ho : opensBlock? n = some kind) {b : Block}
    (hb : openedBlock? k nodes.length n = some b) :
    Register.Follows nodes (k + 1) ⟨r.found ++ [b], ⟨kind, r.found.length⟩ :: r.stack⟩ := by
  rcases nodeOutline_cases n with
    ⟨kind', e, ho', -, -, hnode⟩ | ⟨kind', line, hnone, -⟩ | ⟨es, hnone, -⟩
  · obtain rfl : kind = kind' := Option.some.inj (ho.symm.trans ho')
    obtain ⟨hstart, -⟩ := start_of_openedBlock? hb
    refine ⟨?_, ?_⟩
    · show r.found ++ [b] = foundBefore nodes (k + 1)
      rw [foundBefore, stopBefore_succ_of_no_closing hn (by rw [hnode]), openedFrom_take_succ hn,
        stopBefore_self, hb, h.found]
      rfl
    · rw [stillOpen_take_succ hn, hnode]
      refine List.Forall₂.cons ⟨rfl, by simp [hstart]⟩ (h.stack.imp ?_)
      rintro s c ⟨hkind, hslot⟩
      refine ⟨hkind, ?_⟩
      rw [List.map_append, List.getElem?_append_left (List.getElem?_eq_some_iff.mp hslot).1, hslot]
  · simp [ho] at hnone
  · simp [ho] at hnone

theorem Register.Follows.pass (h : r.Follows nodes k) (hn : nodes[k]? = some n)
    (ho : opensBlock? n = none) (hc : closesBlock? n = none) : r.Follows nodes (k + 1) := by
  rcases nodeOutline_cases n with
    ⟨kind, e, hsome, -⟩ | ⟨kind, line, -, hsome, -⟩ | ⟨es, -, -, -, hnode⟩
  · simp [ho] at hsome
  · simp [hc] at hsome
  · refine ⟨?_, ?_⟩
    · rw [foundBefore_succ_of_no_opener hn ho, stopBefore_succ_of_no_closing hn (by rw [hnode])]
      exact h.found
    · rw [stillOpen_take_succ hn, hnode]
      exact h.stack

/-- Two slots hold two blocks. -/
theorem openedFrom_start_ne {index i j : Nat} {stop : Nat → Nat} {ns : List Node} {b c : Block}
    (hb : (openedFrom index stop ns)[i]? = some b) (hc : (openedFrom index stop ns)[j]? = some c)
    (hij : i ≠ j) : b.start ≠ c.start := by
  have horder := List.pairwise_iff_getElem.mp (openedFrom_in_order index stop ns)
  obtain ⟨hi, rfl⟩ := List.getElem?_eq_some_iff.mp hb
  obtain ⟨hj, rfl⟩ := List.getElem?_eq_some_iff.mp hc
  rcases Nat.lt_or_gt_of_ne hij with hlt | hlt
  · exact Nat.ne_of_lt (horder i j hi hj hlt)
  · exact Nat.ne_of_gt (horder j i hj hi hlt)

/-- Setting the stop in a slot is the same as setting it for the block that starts there. -/
theorem set_stop_eq {index slot stop : Nat} {b : Block} {stops stops' : Nat → Nat} {ns : List Node}
    (hb : (openedFrom index stops ns)[slot]? = some b)
    (hs : ∀ i, stops' i = if i = b.start then stop else stops i) :
    (openedFrom index stops ns).set slot { b with stop } = openedFrom index stops' ns := by
  rw [openedFrom_restop index stops stops' ns]
  apply List.ext_getElem?
  intro j
  rw [List.getElem?_set, List.getElem?_map]
  by_cases hj : slot = j
  · subst hj
    rw [if_pos rfl, if_pos (List.getElem?_eq_some_iff.mp hb).1, hb, Option.map_some, hs,
      if_pos rfl]
  · rw [if_neg hj]
    cases hc : (openedFrom index stops ns)[j]? with
    | none => rfl
    | some c =>
      have hstart := openedFrom_start_ne hb hc hj
      have hstop := stop_of_mem_openedFrom (List.mem_of_getElem? hc)
      rw [Option.map_some, hs, if_neg hstart.symm, ← hstop]

theorem Register.Follows.close_found (h : r.Follows nodes k) (hn : nodes[k]? = some n)
    (ho : opensBlock? n = none) {kind : BlockKind} {line : Nat}
    (hnode : ∀ index stack, nodeOutline index stack n = closeBlock index line kind stack)
    {lost outer : List OpenBlock} {closed : OpenBlock}
    (hs : (outline (nodes.take k)).stillOpen = lost ++ closed :: outer)
    (hl : ∀ b ∈ lost, b.kind ≠ kind) (hk : closed.kind = kind) :
    ∃ t, r.close kind k = some t ∧ t.Follows nodes (k + 1) := by
  have hle : k ≤ nodes.length := Nat.le_of_lt (List.getElem?_eq_some_iff.mp hn).1
  have hstack := h.stack
  rw [hs] at hstack
  obtain ⟨s, rest, hpop, ⟨-, hslot⟩, hrest⟩ := popSlot_found hstack hl hk
  rw [List.getElem?_map] at hslot
  obtain ⟨b, hb, hstart⟩ := Option.map_eq_some_iff.mp hslot
  have hopen : IsOpen nodes k b.start :=
    ((outline_take_reaches hle).isOpen_iff b.start).mpr ⟨closed, by simp [hs], hstart.symm⟩
  have hclosing : (nodeOutline k (outline (nodes.take k)).stillOpen n).closings =
      [(b.start, k)] := by
    rw [hnode, hs, closeBlock_found hl hk, hstart]
  have hset : r.found.set s.slot { b with stop := k } = foundBefore nodes (k + 1) := by
    rw [foundBefore_succ_of_no_opener hn ho]
    rw [h.found] at hb ⊢
    exact set_stop_eq hb (stopBefore_succ_of_closing hn hclosing hopen)
  have hstarts : (foundBefore nodes (k + 1)).map Block.start = r.found.map Block.start := by
    rw [foundBefore_succ_of_no_opener hn ho, h.found]
    exact openedFrom_starts ..
  refine ⟨⟨foundBefore nodes (k + 1), rest⟩, ?_, rfl, ?_⟩
  · rw [Register.close, hpop]
    simp only [hb, Option.map_some, hset]
  · rw [stillOpen_take_succ hn, hnode, hs, closeBlock_found hl hk, hstarts]
    exact hrest

theorem Register.Follows.close_stray (h : r.Follows nodes k) (hn : nodes[k]? = some n)
    (ho : opensBlock? n = none) {kind : BlockKind} {line : Nat}
    (hnode : ∀ index stack, nodeOutline index stack n = closeBlock index line kind stack)
    (hs : ∀ b ∈ (outline (nodes.take k)).stillOpen, b.kind ≠ kind) :
    ∃ t, r.close kind k = some t ∧ t.Follows nodes (k + 1) := by
  have hclosing : (nodeOutline k (outline (nodes.take k)).stillOpen n).closings = [] := by
    rw [hnode, closeBlock_stray hs]
  refine ⟨⟨r.found, []⟩, ?_, ?_, ?_⟩
  · rw [Register.close, popSlot_stray h.stack hs]
  · rw [foundBefore_succ_of_no_opener hn ho, stopBefore_succ_of_no_closing hn hclosing]
    exact h.found
  · rw [stillOpen_take_succ hn, hnode, closeBlock_stray hs]
    exact .nil

theorem Register.Follows.close (h : r.Follows nodes k) (hn : nodes[k]? = some n)
    {kind : BlockKind} (hc : closesBlock? n = some kind) :
    ∃ t, r.close kind k = some t ∧ t.Follows nodes (k + 1) := by
  rcases nodeOutline_cases n with
    ⟨kind', e, -, hnone, -⟩ | ⟨kind', line, ho, hc', hnode⟩ | ⟨es, -, hnone, -⟩
  · simp [hc] at hnone
  · obtain rfl : kind = kind' := Option.some.inj (hc.symm.trans hc')
    rcases stack_cases kind (outline (nodes.take k)).stillOpen with
      ⟨lost, closed, outer, hs, hl, hk⟩ | hs
    · exact h.close_found hn ho hnode hs hl hk
    · exact h.close_stray hn ho hnode hs
  · simp [hc] at hnone

/-- A visit goes on to the next place, whatever the node is. -/
theorem Register.Follows.visit (h : r.Follows nodes k) (hn : nodes[k]? = some n) :
    ∃ t, r.visit nodes.length k n = some t ∧ t.Follows nodes (k + 1) := by
  rcases visit_cases n with ⟨kind, ho, hvisit⟩ | ⟨kind, hc, hvisit⟩ | ⟨ho, hc, hvisit⟩
  · obtain ⟨b, hb, hvisit⟩ := hvisit r nodes.length k
    exact ⟨_, hvisit, h.opened hn ho hb⟩
  · rw [hvisit]
    exact h.close hn hc
  · exact ⟨r, hvisit r nodes.length k, h.pass hn ho hc⟩

end Step

theorem Register.Follows.visitFrom {nodes ns : List Node} {k : Nat} {r : Register}
    (h : r.Follows nodes k) (hs : nodes.drop k = ns) :
    ∃ t, r.visitFrom nodes.length k ns = some t ∧ t.Follows nodes (k + ns.length) := by
  induction ns generalizing k r with
  | nil => exact ⟨r, rfl, h⟩
  | cons n ns ih =>
    have hn : nodes[k]? = some n := by rw [← List.head?_drop, hs, List.head?_cons]
    have hrest : nodes.drop (k + 1) = ns := by rw [← List.tail_drop, hs, List.tail_cons]
    obtain ⟨t, ht, hfollows⟩ := h.visit hn
    obtain ⟨u, hu, hend⟩ := ih hfollows hrest
    refine ⟨u, ?_, ?_⟩
    · rw [Register.visitFrom, ht]
      exact hu
    · rw [List.length_cons, Nat.add_comm ns.length, ← Nat.add_assoc]
      exact hend

/-- Every slot that a closer takes off the stack is in the register, for any nodes. -/
theorem slotBlocks_eq (nodes : List Node) : slotBlocks nodes = some (blocks nodes) := by
  have hstart : Register.Follows nodes 0 ⟨[], []⟩ := ⟨rfl, .nil⟩
  obtain ⟨t, ht, hend⟩ := hstart.visitFrom (List.drop_zero ..)
  have hstop : stopBefore nodes nodes.length = blockStop nodes := by
    funext i
    rw [stopBefore, blockStop, List.take_length]
  rw [slotBlocks, ht, Option.map_some, hend.found, Nat.zero_add, foundBefore, hstop,
    List.take_length, blocks_eq_openedFrom]

end CMakeManual.Manual
