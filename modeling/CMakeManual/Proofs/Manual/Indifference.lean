import CMakeManual.Proofs.Manual.Concatenation
import CMakeManual.Proofs.Manual.Congruence
import CMakeManual.Proofs.Manual.Resolution

/-! What a manual does not depend on. The letter case of command names does not show. Neither does a
node that opens and closes no block and has no effect on keyword arguments: it can stand anywhere,
as long as it does not part a comment from the block below or add to the comments of one. -/
namespace CMakeManual.Manual
open Text Script Vocabulary

/-- The same text with any of its letters A to Z in the other case. -/
def Recased (s t : String) : Prop :=
  List.Forall₂ (fun c d => d = c ∨ d = c.toLower ∨ d = c.toUpper) s.toList t.toList

instance (s t : String) : Decidable (Recased s t) :=
  inferInstanceAs (Decidable (List.Forall₂ _ s.toList t.toList))

theorem toLower_toLower (c : Char) : c.toLower.toLower = c.toLower := by
  have hupper : ¬ (c.toLower.val ≥ 'A'.val ∧ c.toLower.val ≤ 'Z'.val) := by
    delta Char.toLower
    split <;> grind [UInt32.le_iff_toNat_le, UInt32.toNat_add]
  exact dif_neg hupper

theorem toLower_toUpper (c : Char) : c.toUpper.toLower = c.toLower := by
  by_cases hlower : c.val ≥ 'a'.val ∧ c.val ≤ 'z'.val
  · have hupper : ¬ (c.val ≥ 'A'.val ∧ c.val ≤ 'Z'.val) := by
      grind [UInt32.le_iff_toNat_le]
    apply Char.ext
    apply UInt32.toNat_inj.mp
    delta Char.toUpper Char.toLower
    rw [dif_pos hlower, dif_neg hupper]
    split <;> grind [UInt32.le_iff_toNat_le, UInt32.toNat_add, UInt32.toNat_sub]
  · rw [show c.toUpper = c from dif_neg hlower]

theorem sameIgnoringCase_of_recased {s t : String} (h : Recased s t) :
    sameIgnoringCase t s = true := by
  rw [sameIgnoringCase_iff, lowerAscii, lowerAscii]
  unfold Recased at h
  generalize s.toList = cs, t.toList = ds at h
  induction h with
  | nil => rfl
  | @cons c d _ _ hd _ ih =>
    have hlower : d.toLower = c.toLower := by
      rcases hd with rfl | rfl | rfl
      · rfl
      · exact toLower_toLower c
      · exact toLower_toUpper c
    rw [List.map_cons, List.map_cons, hlower, ih]

/-- The same node, a command perhaps under a recased name. -/
inductive NodeRecased : Node → Node → Prop where
  | invocation (c : Invocation) {name : String} (h : Recased c.name name) :
      NodeRecased (.invocation c) (.invocation { c with name })
  | comment (text : Comment) : NodeRecased (.comment text) (.comment text)
  | blankLine (line : Nat) : NodeRecased (.blankLine line) (.blankLine line)

section Rename
variable (c : Invocation) {name : String}
  (hrole : Role.ofName? name = Role.ofName? c.name)
  (hvalidation : isValidation name = isValidation c.name)
include hrole hvalidation

/-- Of a name, a command shows its role and whether it validates, and nothing else. -/
theorem sameEffect_rename : SameEffect c { c with name } := by
  have hobserve : ∀ (policy : Requiredness) evidence,
      policy.observe evidence { c with name } = policy.observe evidence c := by
    intro policy evidence
    simp only [Requiredness.observe, hvalidation]
  constructor
  · intro policy context
    simp only [Context.resolve, hobserve, hrole]
    rfl
  · intro policy context
    simp only [Context.next, hobserve, hrole]
    rfl

theorem readAlike_rename : ReadAlike (.invocation c) (.invocation { c with name }) := by
  refine ⟨?_, ?_, .none, .some (sameEffect_rename c hrole hvalidation)⟩
  · intro index stack
    simp only [nodeOutline, Node.invocation?, commandOutline, hrole]
  · intro start stop
    simp only [openedBlock?, hrole]

end Rename

theorem readAlike_of_recased {n m : Node} (h : NodeRecased n m) : ReadAlike n m := by
  cases h with
  | @invocation c name h =>
    have hsame := sameIgnoringCase_of_recased h
    have hvalidation : isValidation name = isValidation c.name := by
      rw [isValidation, isValidation, sameIgnoringCase_iff.mp hsame]
    exact readAlike_rename c (Role.ofName?_congr hsame) hvalidation
  | comment text => exact ⟨fun _ _ => rfl, fun _ _ => rfl, .some rfl, .none⟩
  | blankLine line => exact ⟨fun _ _ => rfl, fun _ _ => rfl, .none, .none⟩

/-- A node that opens and closes no block and leaves every context as it is. -/
structure Inert (n : Node) : Prop where
  opens : opensBlock? n = none
  closes : closesBlock? n = none
  command : ∀ c, n.invocation? = some c → ∀ policy context,
    Context.resolve context policy c = .empty ∧ Context.next context policy c = context

theorem inert_comment (text : Comment) : Inert (.comment text) := by
  refine ⟨rfl, rfl, ?_⟩
  intro c hc
  simp [Node.invocation?] at hc

theorem inert_blankLine (line : Nat) : Inert (.blankLine line) := by
  refine ⟨rfl, rfl, ?_⟩
  intro c hc
  simp [Node.invocation?] at hc

theorem inert_invocation {command : Invocation} (hrole : Role.ofName? command.name = none)
    (hevidence : ¬ IsEvidence command) : Inert (.invocation command) := by
  refine ⟨?_, ?_, ?_⟩
  · simp [opensBlock?, Node.invocation?, hrole]
  · simp [closesBlock?, Node.invocation?, hrole]
  · intro c hc policy context
    obtain rfl : command = c := by simpa [Node.invocation?] using hc
    simp [Context.resolve, Context.next, observe_eq_none hevidence, hrole]

section Insert
variable {n : Node} (h : Inert n)
include h

/-- Among the commands of a body an inert node is not seen. -/
theorem resolveBody_insert (policy : Requiredness) (front back : List Node) :
    resolveBody policy (front ++ n :: back) = resolveBody policy (front ++ back) := by
  unfold resolveBody
  rw [invocations_append, invocations_append, resolveFrom_append, resolveFrom_append]
  congr 1
  unfold invocations
  cases hn : n.invocation? with
  | none => rw [List.filterMap_cons_none hn]
  | some c =>
    obtain ⟨hresolve, hnext⟩ := h.command c hn policy
      (contextAfter policy .empty (front.filterMap Node.invocation?))
    rw [List.filterMap_cons_some hn, resolveFrom, hresolve, hnext, Resolution.empty_append]

/-- The blocks around an inert node are those without it, moved. -/
theorem blocks_insert (a b : List Node) :
    blocks (a ++ n :: b) = (blocks (a ++ b)).map (Block.renumber (around a.length 1)) := by
  have hself : SelfContained [n] := (Balanced.plain h.opens h.closes .nil).selfContained
  have hnone : blocks [n] = [] := by
    rcases openedBlock?_cases n with ⟨-, ho⟩ | ⟨kind, name, parameters, line, hk, -⟩
    · simp [blocks, ho]
    · simp [h.opens] at hk
  obtain ⟨before, after, -, -, hwithout, hwith⟩ := hself.blocks_insert a b
  rw [hnone, List.append_assoc a] at hwith
  rw [hwithout, List.map_append]
  simpa using hwith

end Insert

/-- A body around the place of a node put in holds it, any other is the same. -/
theorem body_insert {c : Block} (hc : c.start < c.stop) (a b : List Node) (n : Node) :
    (c.renumber (around a.length 1)).body (a ++ n :: b) = c.body (a ++ b) ∨
    ∃ front back, c.body (a ++ b) = front ++ back ∧
      (c.renumber (around a.length 1)).body (a ++ n :: b) = front ++ n :: back := by
  unfold Block.body Block.renumber
  dsimp only
  -- The block stops in front of the place, starts in front of it and goes on, or starts behind it.
  rcases Nat.lt_or_ge c.stop a.length with hstop | hstop
  · have hstart : c.start < a.length := Nat.lt_trans hc hstop
    rw [around_of_lt hstop, around_of_lt hstart, List.take_append_of_le_length hstop.le,
      List.take_append_of_le_length hstop.le]
    exact .inl rfl
  · obtain ⟨j, hj⟩ := Nat.exists_eq_add_of_le hstop
    have hold : (a ++ b).take c.stop = a ++ b.take j := by
      rw [hj, List.take_length_add_append]
    have hnew : (a ++ n :: b).take (around a.length 1 c.stop) = a ++ n :: b.take j := by
      rw [hj, around_add, Nat.add_assoc, Nat.add_comm 1, List.take_length_add_append,
        List.take_succ_cons]
    rw [hold, hnew]
    rcases Nat.lt_or_ge c.start a.length with hstart | hstart
    · rw [around_of_lt hstart, List.drop_append_of_le_length hstart,
        List.drop_append_of_le_length hstart]
      exact .inr ⟨_, _, rfl, rfl⟩
    · obtain ⟨i, hi⟩ := Nat.exists_eq_add_of_le hstart
      rw [hi, around_add, Nat.add_assoc, Nat.add_assoc, Nat.add_assoc, Nat.add_comm 1,
        List.drop_length_add_append, List.drop_length_add_append, List.drop_succ_cons]
      exact .inl rfl

theorem specs_insert {n : Node} (h : Inert n) {c : Block} (hc : c.start < c.stop)
    (policy : Requiredness) (a b : List Node) :
    (c.renumber (around a.length 1)).resolution policy (a ++ n :: b) =
      c.resolution policy (a ++ b) := by
  unfold Block.resolution
  rcases body_insert hc a b n with hbody | ⟨front, back, hold, hnew⟩
  · rw [hbody]
  · rw [hold, hnew, resolveBody_insert h]

/-- The comments at the end are not those in front of a node that is none. -/
theorem commentRun_of_uncommented {ns : List Node} (h : ∃ n ∈ ns, n.comment? = none)
    (front : List Node) : commentRun (front ++ ns) = commentRun ns := by
  obtain ⟨n, hn, hnone⟩ := h
  obtain ⟨l, r, rfl⟩ := List.append_of_mem hn
  have hends : ∀ l : List Node, EndsUncommented (l ++ [n]) := by
    intro l
    simp [EndsUncommented, hnone]
  have hcut : ∀ l : List Node, l ++ n :: r = l ++ [n] ++ r := by
    intro l
    simp
  rw [hcut, ← List.append_assoc, ← List.append_assoc, commentRun_append (hends _),
    commentRun_append (hends _)]

theorem documentationAt_insert {a b : List Node} {n m : Node} {i : Nat}
    (hm : (a ++ b)[i]? = some m)
    (h : ∀ k, b[k]? = some m →
      documentationAbove (a ++ n :: b.take k) = documentationAbove (a ++ b.take k)) :
    documentationAt (a ++ n :: b) (around a.length 1 i) = documentationAt (a ++ b) i := by
  rcases Nat.lt_or_ge i a.length with hi | hi
  · rw [around_of_lt hi, documentationAt_first hi.le, documentationAt_first hi.le]
  · obtain ⟨k, rfl⟩ := Nat.exists_eq_add_of_le hi
    rw [List.getElem?_append_right hi, Nat.add_sub_cancel_left] at hm
    rw [around_add, documentationAt, documentationAt, Nat.add_assoc, Nat.add_comm 1,
      List.take_length_add_append, List.take_length_add_append, List.take_succ_cons]
    exact h k hm

/-- An inert node that changes no documentation behind it changes nothing. -/
theorem callables_insert {a b : List Node} {n : Node} (hn : Inert n)
    (h : ∀ k m, b[k]? = some m → (opensBlock? m).isSome →
      documentationAbove (a ++ n :: b.take k) = documentationAbove (a ++ b.take k))
    (policy : Requiredness) : callables policy (a ++ n :: b) = callables policy (a ++ b) := by
  rw [callables, callables, blocks_insert hn, List.map_map]
  apply List.map_congr_left
  intro c hc
  obtain ⟨m, hm, ho, -⟩ := opener_of_mem_blocks hc
  have hdocumentation := documentationAt_insert (n := n) hm fun k hk => h k m hk (by simp [ho])
  have hresolution := specs_insert hn (start_lt_stop hc) policy a b
  rw [Function.comp_apply, Block.callable, Block.callable, hresolution]
  simp only [Block.renumber, hdocumentation]

/-- A blank line, or a command without a role that validates no variable. -/
def IsIdle : Node → Prop
  | .invocation command => Role.ofName? command.name = none ∧ ¬ IsEvidence command
  | .comment _ => False
  | .blankLine _ => True

theorem IsIdle.inert {n : Node} (h : IsIdle n) : Inert n := by
  cases n with
  | invocation command => exact inert_invocation h.1 h.2
  | comment text => exact absurd h id
  | blankLine line => exact inert_blankLine line

theorem IsIdle.comment? {n : Node} (h : IsIdle n) : n.comment? = none := by
  cases n with
  | invocation command => rfl
  | comment text => exact absurd h id
  | blankLine line => rfl

/-- Any number of comments and then a named opener: a comment in front belongs to its block. -/
def TakesComment (b : List Node) : Prop :=
  ∃ run opener rest, b = run ++ opener :: rest ∧ (∀ n ∈ run, n.comment?.isSome) ∧
    (opensBlock? opener).isSome

theorem comment?_of_opensBlock? {n : Node} (h : (opensBlock? n).isSome) : n.comment? = none := by
  cases n with
  | invocation command => rfl
  | comment text => simp [opensBlock?, Node.invocation?] at h
  | blankLine line => rfl

/-- Only the first node that is no comment matters. -/
theorem takesComment_iff {b : List Node} :
    TakesComment b ↔
      ((b.dropWhile fun n => n.comment?.isSome).head?.bind opensBlock?).isSome = true := by
  constructor
  · rintro ⟨run, opener, rest, rfl, hrun, ho⟩
    rw [List.dropWhile_append_of_pos hrun, List.dropWhile_cons_of_neg
      (by simp [comment?_of_opensBlock? ho])]
    exact ho
  · intro h
    let p := fun n : Node => n.comment?.isSome
    have hcut : b.takeWhile p ++ b.dropWhile p = b := List.takeWhile_append_dropWhile
    have hrun : ∀ n ∈ b.takeWhile p, p n = true := fun n hn => List.mem_takeWhile_imp hn
    cases hd : b.dropWhile p with
    | nil => simp [p, hd] at h
    | cons opener rest =>
      rw [hd] at h hcut
      exact ⟨b.takeWhile p, opener, rest, hcut.symm, hrun, h⟩

instance (b : List Node) : Decidable (TakesComment b) := decidable_of_iff _ takesComment_iff.symm

theorem callables_insert_idle {a : List Node} {n : Node} (hn : IsIdle n)
    (ha : EndsUncommented a) (policy : Requiredness) (b : List Node) :
    callables policy (a ++ n :: b) = callables policy (a ++ b) := by
  refine callables_insert hn.inert ?_ policy
  intro k m _ _
  have hends : EndsUncommented (a ++ [n]) := by simp [EndsUncommented, hn.comment?]
  have hcut : a ++ n :: b.take k = a ++ [n] ++ b.take k := by simp
  rw [documentationAbove, documentationAbove, hcut, commentRun_append hends,
    commentRun_append ha]

theorem callables_insert_comment {b : List Node} (hb : ¬ TakesComment b) (policy : Requiredness)
    (a : List Node) (text : Comment) :
    callables policy (a ++ .comment text :: b) = callables policy (a ++ b) := by
  refine callables_insert (inert_comment text) ?_ policy
  intro k m hm ho
  -- What stands in front of an opener of `b` is not comments alone.
  have hfree : ∃ n ∈ b.take k, n.comment? = none := by
    by_contra hall
    obtain ⟨hk, rfl⟩ := List.getElem?_eq_some_iff.mp hm
    refine hb ⟨b.take k, b[k], b.drop (k + 1), ?_, ?_, ho⟩
    · rw [List.getElem_cons_drop, List.take_append_drop]
    · intro n hn
      rw [Option.isSome_iff_ne_none]
      intro hnone
      exact hall ⟨n, hn, hnone⟩
  have hcut : a ++ .comment text :: b.take k = a ++ [.comment text] ++ b.take k := by simp
  rw [documentationAbove, documentationAbove, hcut, commentRun_of_uncommented hfree,
    commentRun_of_uncommented hfree]

/-- Recasing the names of commands changes no callable. Neither does a blank line or an idle command
between two nodes of which the first is no comment, nor a comment above anything but a block, its
comments included. -/
theorem callables_indifferent (policy : Requiredness) :
    (∀ ns ms, List.Forall₂ NodeRecased ns ms →
      blocks ms = blocks ns ∧ callables policy ms = callables policy ns) ∧
    (∀ a n b, IsIdle n → EndsUncommented a →
      callables policy (a ++ n :: b) = callables policy (a ++ b)) ∧
    ∀ a text b, ¬ TakesComment b →
      callables policy (a ++ .comment text :: b) = callables policy (a ++ b) := by
  refine ⟨?_, ?_, ?_⟩
  · intro ns ms h
    have halike : List.Forall₂ ReadAlike ns ms := h.imp fun _ _ hn => readAlike_of_recased hn
    exact ⟨blocks_congr halike, callables_congr halike policy⟩
  · intro a n b hn ha
    exact callables_insert_idle hn ha policy b
  · intro a text b hb
    exact callables_insert_comment hb policy a text

/-- The names of commands in three letter cases, a validation without a variable in front, and a
comment between the opener and its body. -/
theorem callables_indifferent_mixed :
    let doc : Node := .comment ⟨.line, "# Doc.", 1⟩
    let note : Comment := ⟨.line, "# Note.", 2⟩
    let keys := ["P", "A", "", ""]
    let ns := [doc, bareCall "function" ["f"], bareCall "cmake_parse_arguments" keys,
      bareCall "endfunction" []]
    let ms := [doc, bareCall "FUNCTION" ["f"], bareCall "Cmake_Parse_Arguments" keys,
      bareCall "endFunction" []]
    let idle := bareCall "check_var_defined" []
    List.Forall₂ NodeRecased ns ms ∧ IsIdle idle ∧ EndsUncommented [] ∧ ¬ TakesComment (ms.drop 2) ∧
    callables .byValidationCall ms = callables .byValidationCall ns ∧
    callables .byValidationCall ([] ++ idle :: ms) = callables .byValidationCall ([] ++ ms) ∧
    callables .byValidationCall (ms.take 2 ++ .comment note :: ms.drop 2) =
      callables .byValidationCall (ms.take 2 ++ ms.drop 2) ∧
    callables .byValidationCall ns =
      [⟨.functionBlock, "f", [], "Doc.", 1,
        [⟨"P", ⟨["A"], [], .literal⟩, ⟨[], [], .emptyLiteral⟩, ⟨[], [], .emptyLiteral⟩⟩]⟩] := by
  intro doc note keys ns ms idle
  obtain ⟨hcase, hidle, hcomment⟩ := callables_indifferent .byValidationCall
  have hrecased : List.Forall₂ NodeRecased ns ms := by
    refine .cons (.comment _) (.cons (.invocation _ ?_) (.cons (.invocation _ ?_)
      (.cons (.invocation _ ?_) .nil)))
    all_goals decide
  have hi : IsIdle idle := ⟨by decide, fun hevidence => hevidence.2 rfl⟩
  have ha : EndsUncommented [] := by simp [EndsUncommented]
  have hb : ¬ TakesComment (ms.drop 2) := by decide
  exact ⟨hrecased, hi, ha, hb, (hcase ns ms hrecased).2, hidle [] idle ms hi ha,
    hcomment (ms.take 2) note (ms.drop 2) hb, by decide +kernel⟩

end CMakeManual.Manual
