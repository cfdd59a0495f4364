import CMakeManual.Proofs.Manual.Locality
import Mathlib.Data.List.Forall2

/-! Nodes that are read alike. The analysis looks at a node in four ways: how it moves the stack of
open blocks, which block it opens, what a comment says, and what a command does to a context. Nodes
that agree on these, one by one, have the same blocks and the same callables. -/
namespace CMakeManual.Manual
open Text Script Vocabulary

/-- Commands that declare the same and leave the same behind in every context. -/
structure SameEffect (c d : Invocation) : Prop where
  resolve : ∀ policy context, Context.resolve context policy d = Context.resolve context policy c
  next : ∀ policy context, Context.next context policy d = Context.next context policy c

/-- Comments that give the same lines. -/
def SameProse (c d : Comment) : Prop := commentProse d = commentProse c

/-- Nodes that the analysis does not tell apart. -/
structure ReadAlike (n m : Node) : Prop where
  outline : ∀ index stack, nodeOutline index stack m = nodeOutline index stack n
  opened : ∀ start stop, openedBlock? start stop m = openedBlock? start stop n
  comment : Option.Rel SameProse n.comment? m.comment?
  command : Option.Rel SameEffect n.invocation? m.invocation?

section Alike
variable {ns ms : List Node} (h : List.Forall₂ ReadAlike ns ms)
include h

theorem outlineFrom_congr (index : Nat) (stack : List OpenBlock) :
    outlineFrom index stack ms = outlineFrom index stack ns := by
  induction h generalizing index stack with
  | nil => rfl
  | cons hn _ ih => rw [outlineFrom, outlineFrom, hn.outline, ih]

theorem openedFrom_congr (index : Nat) (stop : Nat → Nat) :
    openedFrom index stop ms = openedFrom index stop ns := by
  induction h generalizing index with
  | nil => rfl
  | cons hn _ ih => rw [openedFrom_cons, openedFrom_cons, hn.opened, ih]

theorem blocks_congr : blocks ms = blocks ns := by
  have hstop : blockStop ms = blockStop ns := by
    funext start
    rw [blockStop, blockStop, outline, outline, outlineFrom_congr h, h.length_eq]
  rw [blocks_eq_openedFrom, blocks_eq_openedFrom, hstop, openedFrom_congr h]

theorem takeComments_congr :
    List.Forall₂ SameProse
      ((ns.takeWhile fun n => n.comment?.isSome).filterMap Node.comment?)
      ((ms.takeWhile fun n => n.comment?.isSome).filterMap Node.comment?) := by
  induction h with
  | nil => exact .nil
  | @cons n m ns ms hn _ ih =>
    have hcomment := hn.comment
    generalize hc : n.comment? = c, hd : m.comment? = d at hcomment
    cases hcomment with
    | none =>
      rw [List.takeWhile_cons_of_neg (by simp [hc]), List.takeWhile_cons_of_neg (by simp [hd])]
      exact .nil
    | some hprose =>
      rw [List.takeWhile_cons_of_pos (by simp [hc]), List.takeWhile_cons_of_pos (by simp [hd]),
        List.filterMap_cons_some hc, List.filterMap_cons_some hd]
      exact .cons hprose ih

theorem documentationAbove_congr : documentationAbove ms = documentationAbove ns := by
  have hrun : List.Forall₂ SameProse (commentRun ns) (commentRun ms) :=
    List.forall₂_reverse_iff.mpr (takeComments_congr (List.forall₂_reverse_iff.mpr h))
  have hprose : (commentRun ms).flatMap commentProse = (commentRun ns).flatMap commentProse := by
    generalize commentRun ns = cs, commentRun ms = ds at hrun
    induction hrun with
    | nil => rfl
    | cons hc _ ih => rw [List.flatMap_cons, List.flatMap_cons, hc, ih]
  rw [documentationAbove, documentationAbove, hprose]

theorem invocations_congr : List.Forall₂ SameEffect (invocations ns) (invocations ms) := by
  unfold invocations
  induction h with
  | nil => exact .nil
  | @cons n m ns ms hn _ ih =>
    have hcommand := hn.command
    generalize hc : n.invocation? = c, hd : m.invocation? = d at hcommand
    cases hcommand with
    | none => rwa [List.filterMap_cons_none hc, List.filterMap_cons_none hd]
    | some heffect =>
      rw [List.filterMap_cons_some hc, List.filterMap_cons_some hd]
      exact .cons heffect ih

end Alike

theorem resolveFrom_congr {cs ds : List Invocation} (h : List.Forall₂ SameEffect cs ds)
    (policy : Requiredness) (context : Context) :
    resolveFrom policy context ds = resolveFrom policy context cs := by
  induction h generalizing context with
  | nil => rfl
  | cons hc _ ih => rw [resolveFrom, resolveFrom, hc.resolve, hc.next, ih]

theorem callable_congr {ns ms : List Node} (h : List.Forall₂ ReadAlike ns ms)
    (policy : Requiredness) (b : Block) : b.callable policy ms = b.callable policy ns := by
  have hbody : List.Forall₂ ReadAlike (b.body ns) (b.body ms) :=
    List.forall₂_drop _ (List.forall₂_take _ h)
  have hresolution : b.resolution policy ms = b.resolution policy ns :=
    resolveFrom_congr (invocations_congr hbody) policy .empty
  have hdocumentation : documentationAt ms b.start = documentationAt ns b.start :=
    documentationAbove_congr (List.forall₂_take b.start h)
  rw [Block.callable, Block.callable, hresolution, hdocumentation]

/-- Nodes that are read alike declare the same callables. -/
theorem callables_congr {ns ms : List Node} (h : List.Forall₂ ReadAlike ns ms)
    (policy : Requiredness) : callables policy ms = callables policy ns := by
  rw [callables, callables, blocks_congr h]
  apply List.map_congr_left
  intro b _
  exact callable_congr h policy b

end CMakeManual.Manual
