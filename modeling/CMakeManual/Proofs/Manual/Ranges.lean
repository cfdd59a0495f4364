import CMakeManual.Proofs.Manual.Locality

/-! Ranges of blocks in any nodes, balanced or not. Which blocks are open at a place is said by
places alone, without a stack; matching agrees with it, and the shape of the ranges follows. -/
namespace CMakeManual.Manual
open Text Script Vocabulary

/-- The kind of the named block that opens at a place. -/
def openerAt (nodes : List Node) (i : Nat) : Option BlockKind := nodes[i]?.bind opensBlock?

/-- The kind of the block that a node at a place closes. -/
def closerAt (nodes : List Node) (k : Nat) : Option BlockKind := nodes[k]?.bind closesBlock?

theorem exists_invocationAt {nodes : List Node} {i : Nat} {named : Invocation → Prop} :
    (∃ n, nodes[i]? = some n ∧ ∃ command, n = .invocation command ∧ named command) ↔
      ∃ command, nodes[i]? = some (.invocation command) ∧ named command := by
  constructor
  · rintro ⟨n, hn, command, rfl, hnamed⟩
    exact ⟨command, hn, hnamed⟩
  · rintro ⟨command, hn, hnamed⟩
    exact ⟨.invocation command, hn, command, rfl, hnamed⟩

/-- An opener is a command named `function` or `macro`, in any letter case, with an argument. -/
theorem openerAt_eq_some_iff {nodes : List Node} {i : Nat} {kind : BlockKind} :
    openerAt nodes i = some kind ↔ ∃ command, nodes[i]? = some (.invocation command) ∧
      lowerAscii command.name = kind.word.toList ∧ command.arguments ≠ [] := by
  simp only [openerAt, Option.bind_eq_some_iff, opensBlock?_eq_some_iff, exists_invocationAt]

/-- A closer is a command named `endfunction` or `endmacro`, in any letter case. -/
theorem closerAt_eq_some_iff {nodes : List Node} {k : Nat} {kind : BlockKind} :
    closerAt nodes k = some kind ↔ ∃ command, nodes[k]? = some (.invocation command) ∧
      lowerAscii command.name = ("end" ++ kind.word).toList := by
  simp only [closerAt, Option.bind_eq_some_iff, closesBlock?_eq_some_iff, exists_invocationAt]

/-- A closer of `kind` takes the block at `i` off the open ones: no block of that kind was opened
behind `i`. -/
def TakenOff (nodes : List Node) (isOpen : Nat → Prop) (kind : BlockKind) (i : Nat) : Prop :=
  isOpen i ∧ ∀ j, isOpen j → openerAt nodes j = some kind → j ≤ i

/-- The block that opens at `i` is open in front of the node at `k`. -/
def IsOpen (nodes : List Node) : Nat → Nat → Prop
  | 0, _ => False
  | k + 1, i =>
      (i = k ∧ (openerAt nodes k).isSome) ∨
        IsOpen nodes k i ∧
          ∀ kind, closerAt nodes k = some kind → ¬ TakenOff nodes (IsOpen nodes k) kind i

/-- The node at `k` ends the block at `i`: it takes it off, and is of its kind. -/
def ClosedBy (nodes : List Node) (i k : Nat) : Prop :=
  ∃ kind, closerAt nodes k = some kind ∧ TakenOff nodes (IsOpen nodes k) kind i ∧
    openerAt nodes i = some kind

/-- The node at `k` gives up the block at `i`: it takes it off, and is of the other kind. -/
def DiscardedBy (nodes : List Node) (i k : Nat) : Prop :=
  ∃ kind, closerAt nodes k = some kind ∧ TakenOff nodes (IsOpen nodes k) kind i ∧
    openerAt nodes i ≠ some kind

section Open
variable {nodes : List Node} {i j k : Nat}

theorem closerAt_eq_none_of_opener {kind : BlockKind} (h : openerAt nodes i = some kind) :
    closerAt nodes i = none := by
  obtain ⟨n, hn, ho⟩ := Option.bind_eq_some_iff.mp h
  rcases nodeOutline_cases n with ⟨k, e, -, hc, -, -⟩ | ⟨k, line, hnone, -, -⟩ | ⟨es, -, hc, -, -⟩
  · simp [closerAt, hn, hc]
  · simp [ho] at hnone
  · simp [closerAt, hn, hc]

theorem IsOpen.lt (h : IsOpen nodes k i) : i < k := by
  induction k with
  | zero => exact absurd h id
  | succ k ih =>
    rcases h with ⟨rfl, -⟩ | ⟨h, -⟩
    · exact Nat.lt_succ_self i
    · exact Nat.lt_succ_of_lt (ih h)

theorem IsOpen.opener (h : IsOpen nodes k i) : ∃ kind, openerAt nodes i = some kind := by
  induction k with
  | zero => exact absurd h id
  | succ k ih =>
    rcases h with ⟨rfl, h⟩ | ⟨h, -⟩
    · exact Option.isSome_iff_exists.mp h
    · exact ih h

/-- A block that is open has been so since its opener. -/
theorem IsOpen.earlier (h : IsOpen nodes k i) (hi : i < j) (hj : j ≤ k) : IsOpen nodes j i := by
  induction k with
  | zero => exact absurd h id
  | succ k ih =>
    rcases Nat.lt_or_ge k j with hk | hk
    · obtain rfl : j = k + 1 := by omega
      exact h
    · rcases h with ⟨rfl, -⟩ | ⟨h, -⟩
      · omega
      · exact ih h hk

theorem takenOff_iff {kind : BlockKind} (h : closerAt nodes k = some kind) :
    TakenOff nodes (IsOpen nodes k) kind i ↔ ClosedBy nodes i k ∨ DiscardedBy nodes i k := by
  constructor
  · intro ht
    by_cases ho : openerAt nodes i = some kind
    · exact .inl ⟨kind, h, ht, ho⟩
    · exact .inr ⟨kind, h, ht, ho⟩
  · rintro (⟨other, hc, ht, -⟩ | ⟨other, hc, ht, -⟩)
    · obtain rfl : kind = other := Option.some.inj (h.symm.trans hc)
      exact ht
    · obtain rfl : kind = other := Option.some.inj (h.symm.trans hc)
      exact ht

theorem ClosedBy.isOpen (h : ClosedBy nodes i k) : IsOpen nodes k i := by
  obtain ⟨kind, -, ht, -⟩ := h
  exact ht.1

theorem ClosedBy.lt_length (h : ClosedBy nodes i k) : k < nodes.length := by
  obtain ⟨kind, hc, -⟩ := h
  obtain ⟨n, hn, -⟩ := Option.bind_eq_some_iff.mp hc
  exact (List.getElem?_eq_some_iff.mp hn).1

theorem DiscardedBy.isOpen (h : DiscardedBy nodes i k) : IsOpen nodes k i := by
  obtain ⟨kind, -, ht, -⟩ := h
  exact ht.1

/-- What a closer takes off is not open behind it. -/
theorem not_isOpen_of_takenOff (h : ClosedBy nodes i j ∨ DiscardedBy nodes i j) (hk : j < k) :
    ¬ IsOpen nodes k i := by
  intro ho
  obtain ⟨hopen, kind, hc⟩ : IsOpen nodes j i ∧ ∃ kind, closerAt nodes j = some kind := by
    rcases h with h | h
    · exact ⟨h.isOpen, h.choose, h.choose_spec.1⟩
    · exact ⟨h.isOpen, h.choose, h.choose_spec.1⟩
  rcases ho.earlier (Nat.lt_succ_of_lt hopen.lt) hk with ⟨rfl, -⟩ | ⟨-, hkeep⟩
  · exact absurd hopen.lt (Nat.lt_irrefl i)
  · exact hkeep kind hc ((takenOff_iff hc).mpr h)

/-- A block is open from its opener on until a closer ends it or gives it up. -/
theorem isOpen_iff :
    IsOpen nodes k i ↔ (openerAt nodes i).isSome ∧ i < k ∧
      ∀ j < k, ¬ ClosedBy nodes i j ∧ ¬ DiscardedBy nodes i j := by
  constructor
  · intro h
    refine ⟨Option.isSome_iff_exists.mpr h.opener, h.lt, ?_⟩
    intro j hj
    exact ⟨fun hc => not_isOpen_of_takenOff (.inl hc) hj h,
      fun hd => not_isOpen_of_takenOff (.inr hd) hj h⟩
  · rintro ⟨ho, hi, hkeep⟩
    induction k with
    | zero => omega
    | succ k ih =>
      rcases Nat.lt_succ_iff_lt_or_eq.mp hi with hlt | rfl
      · refine .inr ⟨ih hlt fun j hj => hkeep j (Nat.lt_succ_of_lt hj), ?_⟩
        intro kind hc ht
        rcases (takenOff_iff hc).mp ht with h | h
        · exact (hkeep k (Nat.lt_succ_self k)).1 h
        · exact (hkeep k (Nat.lt_succ_self k)).2 h
      · exact .inl ⟨rfl, ho⟩

/-- A block has one closer. -/
theorem ClosedBy.closer_unique (h : ClosedBy nodes i j) (h' : ClosedBy nodes i k) : j = k := by
  rcases Nat.lt_trichotomy j k with hlt | heq | hlt
  · exact absurd h'.isOpen (not_isOpen_of_takenOff (.inl h) hlt)
  · exact heq
  · exact absurd h.isOpen (not_isOpen_of_takenOff (.inl h') hlt)

/-- A closer ends one block. -/
theorem ClosedBy.opener_unique (h : ClosedBy nodes i k) (h' : ClosedBy nodes j k) : i = j := by
  obtain ⟨kind, hc, ht, ho⟩ := h
  obtain ⟨other, hc', ht', ho'⟩ := h'
  obtain rfl : kind = other := Option.some.inj (hc.symm.trans hc')
  exact Nat.le_antisymm (ht'.2 i ht.1 ho) (ht.2 j ht'.1 ho')

/-- A block that opens inside another closed one and is closed itself ends inside it. -/
theorem ClosedBy.nested {l : Nat} (h : ClosedBy nodes i k) (h' : ClosedBy nodes j l) (hi : i < j)
    (hj : j < k) : l < k := by
  rcases Nat.lt_trichotomy l k with hlt | rfl | hlt
  · exact hlt
  · exact absurd (h.opener_unique h') (Nat.ne_of_lt hi)
  · -- The inner block survives the closer only if one of its kind was opened still later.
    obtain ⟨kind, hc, ht, -⟩ := h
    rcases h'.isOpen.earlier (Nat.lt_succ_of_lt hj) hlt with ⟨rfl, -⟩ | ⟨hopen, hkeep⟩
    · exact absurd hj (Nat.lt_irrefl j)
    · refine absurd ⟨hopen, ?_⟩ (hkeep kind hc)
      intro m hm hmk
      exact Nat.le_of_lt (Nat.lt_of_le_of_lt (ht.2 m hm hmk) hi)

end Open

/-- Matching has reached the node at `k`: the stack holds what is open there, innermost first, and
the closings are those of the closers in front. -/
structure Reaches (nodes : List Node) (k : Nat) (o : Outline) : Prop where
  isOpen_iff : ∀ i, IsOpen nodes k i ↔ ∃ b ∈ o.stillOpen, b.start = i
  opener : ∀ b ∈ o.stillOpen, openerAt nodes b.start = some b.kind
  innermost_first : o.stillOpen.Pairwise fun b c => c.start < b.start
  mem_closings : ∀ i j, (i, j) ∈ o.closings ↔ j < k ∧ ClosedBy nodes i j

section Step
variable {nodes : List Node} {k : Nat} {kind : BlockKind} {o : Outline}

theorem isOpen_succ_of_closer (hc : closerAt nodes k = some kind) (i : Nat) :
    IsOpen nodes (k + 1) i ↔ IsOpen nodes k i ∧ ¬ TakenOff nodes (IsOpen nodes k) kind i := by
  have ho : openerAt nodes k = none := by
    cases h : openerAt nodes k with
    | none => rfl
    | some other => simp [closerAt_eq_none_of_opener h] at hc
  simp [IsOpen, hc, ho]

theorem isOpen_succ_of_no_closer (hc : closerAt nodes k = none) (i : Nat) :
    IsOpen nodes (k + 1) i ↔ (i = k ∧ (openerAt nodes k).isSome) ∨ IsOpen nodes k i := by
  simp [IsOpen, hc]

theorem not_closedBy_of_no_closer (hc : closerAt nodes k = none) (i : Nat) :
    ¬ ClosedBy nodes i k := by
  rintro ⟨kind, h, -⟩
  simp [hc] at h

/-- The closings in front of the next node are those so far and that of this node. -/
theorem closings_succ {closings new : List (Nat × Nat)}
    (h : ∀ i j, (i, j) ∈ closings ↔ j < k ∧ ClosedBy nodes i j)
    (hnew : ∀ i j, (i, j) ∈ new ↔ j = k ∧ ClosedBy nodes i k) (i j : Nat) :
    (i, j) ∈ closings ++ new ↔ j < k + 1 ∧ ClosedBy nodes i j := by
  rw [List.mem_append, h, hnew, Nat.lt_succ_iff_lt_or_eq]
  constructor
  · rintro (⟨hj, hc⟩ | ⟨rfl, hc⟩)
    · exact ⟨.inl hj, hc⟩
    · exact ⟨.inr rfl, hc⟩
  · rintro ⟨hj | rfl, hc⟩
    · exact .inl ⟨hj, hc⟩
    · exact .inr ⟨rfl, hc⟩

theorem Reaches.opened (h : Reaches nodes k o) (hk : openerAt nodes k = some kind)
    (events : List Event) :
    Reaches nodes (k + 1) ⟨o.closings ++ [], ⟨kind, k⟩ :: o.stillOpen, events⟩ := by
  have hc := closerAt_eq_none_of_opener hk
  refine ⟨?_, ?_, ?_, ?_⟩
  · intro i
    rw [isOpen_succ_of_no_closer hc, h.isOpen_iff, hk]
    simp [eq_comm]
  · intro b hb
    rcases List.mem_cons.mp hb with rfl | hb
    · exact hk
    · exact h.opener b hb
  · refine List.pairwise_cons.mpr ⟨?_, h.innermost_first⟩
    intro b hb
    exact ((h.isOpen_iff b.start).mpr ⟨b, hb, rfl⟩).lt
  · refine closings_succ h.mem_closings ?_
    intro i j
    simp [not_closedBy_of_no_closer hc]

theorem Reaches.pass (h : Reaches nodes k o) (hk : openerAt nodes k = none)
    (hc : closerAt nodes k = none) (events : List Event) :
    Reaches nodes (k + 1) ⟨o.closings ++ [], o.stillOpen, events⟩ := by
  refine ⟨?_, h.opener, h.innermost_first, ?_⟩
  · intro i
    rw [isOpen_succ_of_no_closer hc, h.isOpen_iff, hk]
    simp
  · refine closings_succ h.mem_closings ?_
    intro i j
    simp [not_closedBy_of_no_closer hc]

/-- A closer takes off its block and what is open inside. -/
theorem Reaches.takenOff_iff (h : Reaches nodes k o) {lost outer : List OpenBlock}
    {closed : OpenBlock} (hs : o.stillOpen = lost ++ closed :: outer)
    (hl : ∀ b ∈ lost, b.kind ≠ kind) (hk : closed.kind = kind) (i : Nat) :
    TakenOff nodes (IsOpen nodes k) kind i ↔ IsOpen nodes k i ∧ closed.start ≤ i := by
  have hmem : closed ∈ o.stillOpen := by simp [hs]
  constructor
  · rintro ⟨hi, hlast⟩
    have hopen := (h.isOpen_iff closed.start).mpr ⟨closed, hmem, rfl⟩
    exact ⟨hi, hlast closed.start hopen (hk ▸ h.opener closed hmem)⟩
  · rintro ⟨hi, hle⟩
    refine ⟨hi, ?_⟩
    intro j hj hjk
    -- An open block of that kind is the closed one or lies outside it.
    obtain ⟨b, hb, rfl⟩ := (h.isOpen_iff j).mp hj
    have hbk : b.kind = kind := Option.some.inj ((h.opener b hb).symm.trans hjk)
    have hord := h.innermost_first
    rw [hs] at hb hord
    rcases List.mem_append.mp hb with hb | hb
    · exact absurd hbk (hl b hb)
    · rcases List.mem_cons.mp hb with rfl | hb
      · exact hle
      · have hlt := (List.pairwise_cons.mp (List.pairwise_append.mp hord).2.1).1 b hb
        exact Nat.le_of_lt (Nat.lt_of_lt_of_le hlt hle)

/-- A closer ends the innermost open block of its kind. -/
theorem Reaches.closedBy (h : Reaches nodes k o) (hc : closerAt nodes k = some kind)
    {lost outer : List OpenBlock} {closed : OpenBlock}
    (hs : o.stillOpen = lost ++ closed :: outer) (hl : ∀ b ∈ lost, b.kind ≠ kind)
    (hk : closed.kind = kind) : ClosedBy nodes closed.start k := by
  have hmem : closed ∈ o.stillOpen := by simp [hs]
  have hopen := (h.isOpen_iff closed.start).mpr ⟨closed, hmem, rfl⟩
  have htaken := (h.takenOff_iff hs hl hk closed.start).mpr ⟨hopen, Nat.le_refl _⟩
  exact ⟨kind, hc, htaken, hk ▸ h.opener closed hmem⟩

theorem Reaches.close (h : Reaches nodes k o) (hc : closerAt nodes k = some kind)
    {lost outer : List OpenBlock} {closed : OpenBlock}
    (hs : o.stillOpen = lost ++ closed :: outer) (hl : ∀ b ∈ lost, b.kind ≠ kind)
    (hk : closed.kind = kind) (events : List Event) :
    Reaches nodes (k + 1) ⟨o.closings ++ [(closed.start, k)], outer, events⟩ := by
  have htaken := h.takenOff_iff hs hl hk
  have hord := h.innermost_first
  rw [hs] at hord
  obtain ⟨-, hinner, hcross⟩ := List.pairwise_append.mp hord
  obtain ⟨hout, houter⟩ := List.pairwise_cons.mp hinner
  have hsub : ∀ b ∈ outer, b ∈ o.stillOpen := by
    intro b hb
    simp [hs, hb]
  refine ⟨?_, fun b hb => h.opener b (hsub b hb), houter, ?_⟩
  · intro i
    rw [isOpen_succ_of_closer hc, htaken]
    constructor
    · rintro ⟨hi, hkeep⟩
      obtain ⟨b, hb, rfl⟩ := (h.isOpen_iff i).mp hi
      have hlt : b.start < closed.start := Nat.lt_of_not_le fun hle => hkeep ⟨hi, hle⟩
      rw [hs] at hb
      rcases List.mem_append.mp hb with hb | hb
      · exact absurd (hcross b hb closed List.mem_cons_self) (Nat.lt_asymm hlt)
      · rcases List.mem_cons.mp hb with rfl | hb
        · exact absurd hlt (Nat.lt_irrefl _)
        · exact ⟨b, hb, rfl⟩
    · rintro ⟨b, hb, rfl⟩
      refine ⟨(h.isOpen_iff b.start).mpr ⟨b, hsub b hb, rfl⟩, ?_⟩
      rintro ⟨-, hle⟩
      exact absurd (hout b hb) (Nat.not_lt_of_le hle)
  · refine closings_succ h.mem_closings ?_
    have hclosed := h.closedBy hc hs hl hk
    intro i j
    simp only [List.mem_singleton, Prod.mk.injEq]
    constructor
    · rintro ⟨rfl, rfl⟩
      exact ⟨rfl, hclosed⟩
    · rintro ⟨rfl, hi⟩
      exact ⟨hi.opener_unique hclosed, rfl⟩

theorem Reaches.stray (h : Reaches nodes k o) (hc : closerAt nodes k = some kind)
    (hs : ∀ b ∈ o.stillOpen, b.kind ≠ kind) (events : List Event) :
    Reaches nodes (k + 1) ⟨o.closings ++ [], [], events⟩ := by
  have hnone : ∀ i, IsOpen nodes k i → openerAt nodes i ≠ some kind := by
    intro i hi ho
    obtain ⟨b, hb, rfl⟩ := (h.isOpen_iff i).mp hi
    exact hs b hb (Option.some.inj ((h.opener b hb).symm.trans ho))
  refine ⟨?_, by simp, List.Pairwise.nil, ?_⟩
  · intro i
    rw [isOpen_succ_of_closer hc]
    constructor
    · rintro ⟨hi, hkeep⟩
      exact absurd ⟨hi, fun j hj ho => absurd ho (hnone j hj)⟩ hkeep
    · rintro ⟨b, hb, -⟩
      exact absurd hb List.not_mem_nil
  · refine closings_succ h.mem_closings ?_
    intro i j
    simp only [List.not_mem_nil, false_iff]
    rintro ⟨-, other, hc', ht, ho⟩
    obtain rfl : kind = other := Option.some.inj (hc.symm.trans hc')
    exact hnone i ht.1 ho

/-- Matching one node goes on to the next place. -/
theorem Reaches.step (h : Reaches nodes k o) {n : Node} (hn : nodes[k]? = some n)
    (events : List Event) :
    Reaches nodes (k + 1)
      ⟨o.closings ++ (nodeOutline k o.stillOpen n).closings,
        (nodeOutline k o.stillOpen n).stillOpen, events⟩ := by
  have hopener : openerAt nodes k = opensBlock? n := by rw [openerAt, hn, Option.bind_some]
  have hcloser : closerAt nodes k = closesBlock? n := by rw [closerAt, hn, Option.bind_some]
  rcases nodeOutline_cases n with
    ⟨kind, e, ho, -, -, hnode⟩ | ⟨kind, line, -, hc, hnode⟩ | ⟨es, ho, hc, -, hnode⟩
  · rw [hnode]
    exact h.opened (hopener.trans ho) events
  · rw [hnode]
    rcases stack_cases kind o.stillOpen with ⟨lost, closed, outer, hs, hl, hk⟩ | hs
    · rw [hs, closeBlock_found hl hk]
      exact h.close (hcloser.trans hc) hs hl hk events
    · rw [closeBlock_stray hs]
      exact h.stray (hcloser.trans hc) hs events
  · rw [hnode]
    exact h.pass (hopener.trans ho) (hcloser.trans hc) events

end Step

theorem outline_take_succ {nodes : List Node} {k : Nat} {n : Node} (hn : nodes[k]? = some n) :
    outline (nodes.take (k + 1)) =
      let before := outline (nodes.take k)
      let node := nodeOutline k before.stillOpen n
      ⟨before.closings ++ node.closings, node.stillOpen, before.events ++ node.events⟩ := by
  obtain ⟨hlt, rfl⟩ := List.getElem?_eq_some_iff.mp hn
  rw [List.take_succ_eq_append_getElem hlt]
  simp only [outline, outlineFrom_append, outlineFrom, List.length_take, Nat.zero_add,
    Nat.min_eq_left (Nat.le_of_lt hlt), List.append_nil]

theorem outline_take_reaches {nodes : List Node} {k : Nat} (hk : k ≤ nodes.length) :
    Reaches nodes k (outline (nodes.take k)) := by
  induction k with
  | zero => refine ⟨?_, ?_, ?_, ?_⟩ <;> simp [outline, outlineFrom, IsOpen]
  | succ k ih =>
    have hn : nodes[k]? = some nodes[k] := List.getElem?_eq_getElem hk
    rw [outline_take_succ hn]
    exact (ih (Nat.le_of_lt hk)).step hn _

/-- Matching all nodes finds the closers of all blocks. -/
theorem mem_closings_iff (nodes : List Node) (i j : Nat) :
    (i, j) ∈ (outline nodes).closings ↔ ClosedBy nodes i j := by
  have h := outline_take_reaches (Nat.le_refl nodes.length)
  rw [List.take_length] at h
  rw [h.mem_closings]
  constructor
  · exact And.right
  · intro hc
    exact ⟨hc.lt_length, hc⟩

/-- A closer with an open block of its kind ends the last of these. -/
theorem exists_closedBy {nodes : List Node} {k : Nat} {kind : BlockKind}
    (hc : closerAt nodes k = some kind) {i : Nat} (hi : IsOpen nodes k i)
    (ho : openerAt nodes i = some kind) : ∃ j, ClosedBy nodes j k := by
  have hlt : k < nodes.length := by
    obtain ⟨n, hn, -⟩ := Option.bind_eq_some_iff.mp hc
    exact (List.getElem?_eq_some_iff.mp hn).1
  have h := outline_take_reaches (Nat.le_of_lt hlt)
  rcases stack_cases kind (outline (nodes.take k)).stillOpen with
    ⟨lost, closed, outer, hs, hl, hk⟩ | hs
  · exact ⟨closed.start, h.closedBy hc hs hl hk⟩
  · obtain ⟨b, hb, rfl⟩ := (h.isOpen_iff i).mp hi
    exact absurd (Option.some.inj ((h.opener b hb).symm.trans ho)) (hs b hb)

theorem blockStop_cases (nodes : List Node) (i : Nat) :
    ClosedBy nodes i (blockStop nodes i) ∨
      blockStop nodes i = nodes.length ∧ ∀ j, ¬ ClosedBy nodes i j := by
  unfold blockStop
  cases h : (outline nodes).closings.lookup i with
  | some j =>
    obtain ⟨l, r, hl, -⟩ := List.lookup_eq_some_iff.1 h
    exact .inl ((mem_closings_iff nodes i j).mp (by simp [hl]))
  | none =>
    refine .inr ⟨rfl, ?_⟩
    intro j hj
    obtain ⟨stop, hs⟩ := exists_lookup_of_mem ((mem_closings_iff nodes i j).mpr hj)
    simp [h] at hs

section Blocks
variable {nodes : List Node} {b c : Block}

theorem openerAt_of_mem_blocks (hb : b ∈ blocks nodes) : openerAt nodes b.start = some b.kind := by
  obtain ⟨n, hn, ho, -⟩ := opener_of_mem_blocks hb
  rw [openerAt, hn, Option.bind_some, ho]

theorem mem_blocks_of_opener {i : Nat} {kind : BlockKind} (h : openerAt nodes i = some kind) :
    ∃ b ∈ blocks nodes, b.start = i := by
  obtain ⟨n, hn, ho⟩ := Option.bind_eq_some_iff.mp h
  rcases openedBlock?_cases n with ⟨hnone, -⟩ | ⟨k, name, parameters, line, -, hb⟩
  · simp [ho] at hnone
  · exact ⟨⟨k, name, parameters, line, i, blockStop nodes i⟩, mem_blocks.mpr ⟨n, hn, hb i _⟩, rfl⟩

/-- A block stops at a node if the node ends it. -/
theorem stop_eq_iff_closedBy (hb : b ∈ blocks nodes) {k : Nat} (hk : k < nodes.length) :
    b.stop = k ↔ ClosedBy nodes b.start k := by
  obtain ⟨n, -, -, hstop⟩ := opener_of_mem_blocks hb
  rw [hstop]
  rcases blockStop_cases nodes b.start with hc | ⟨hend, hnone⟩
  · constructor
    · rintro rfl
      exact hc
    · exact hc.closer_unique
  · constructor
    · intro h
      omega
    · intro h
      exact absurd h (hnone k)

theorem stop_le_length (hb : b ∈ blocks nodes) : b.stop ≤ nodes.length := by
  obtain ⟨n, -, -, hstop⟩ := opener_of_mem_blocks hb
  exact hstop ▸ blockStop_le_length nodes b.start

theorem openedFrom_in_order (index : Nat) (stop : Nat → Nat) (nodes : List Node) :
    (openedFrom index stop nodes).Pairwise fun b c => b.start < c.start := by
  have hindex : (nodes.zipIdx index).Pairwise fun n m => n.2 < m.2 := by
    rw [← List.pairwise_map (f := Prod.snd) (R := (· < ·)), List.zipIdx_map_snd]
    exact List.pairwise_lt_range'
  unfold openedFrom
  rw [List.pairwise_filterMap]
  refine hindex.imp ?_
  rintro ⟨n, i⟩ ⟨m, j⟩ hij b hb c hc
  rcases openedBlock?_cases n with ⟨-, hn⟩ | ⟨k, name, parameters, line, -, hn⟩
  · simp [hn] at hb
  · rcases openedBlock?_cases m with ⟨-, hm⟩ | ⟨k', name', parameters', line', -, hm⟩
    · simp [hm] at hc
    · rw [hn] at hb
      rw [hm] at hc
      rw [← Option.some.inj hb, ← Option.some.inj hc]
      exact hij

theorem blocks_in_order (nodes : List Node) :
    (blocks nodes).Pairwise fun b c => b.start < c.start :=
  openedFrom_in_order 0 (blockStop nodes) nodes

/-- Of two closed blocks the later one lies behind the earlier one or inside it. -/
theorem stop_lt_or_stop_lt (hb : b ∈ blocks nodes) (hc : c ∈ blocks nodes) (h : b.start < c.start)
    (hbs : b.stop < nodes.length) (hcs : c.stop < nodes.length) :
    b.stop < c.start ∨ c.stop < b.stop := by
  have hbc := (stop_eq_iff_closedBy hb hbs).mp rfl
  have hcc := (stop_eq_iff_closedBy hc hcs).mp rfl
  rcases Nat.lt_trichotomy b.stop c.start with hlt | heq | hlt
  · exact .inl hlt
  · -- A closer is no opener.
    obtain ⟨kind, hk, -⟩ := hbc
    rw [heq, closerAt_eq_none_of_opener (openerAt_of_mem_blocks hc)] at hk
    exact absurd hk (by simp)
  · exact .inr (hbc.nested hcc h hlt)

end Blocks

/-- The ranges of the blocks, which are those of the callables, fit the nodes. -/
structure RangesFit (nodes : List Node) : Prop where
  /-- A block starts at the node that opens it, and two blocks at two nodes. -/
  starts : (∀ b ∈ blocks nodes, ∃ n, nodes[b.start]? = some n ∧
      openedBlock? b.start b.stop n = some b) ∧
    (blocks nodes).Pairwise fun b c => b.start < c.start
  /-- It stops at the end or at a later closer of its kind. -/
  stops : ∀ b ∈ blocks nodes, b.stop = nodes.length ∨
    b.start < b.stop ∧ closerAt nodes b.stop = some b.kind
  /-- Two blocks do not share a closer. -/
  apart : (blocks nodes).Pairwise fun b c => b.stop < nodes.length → b.stop ≠ c.stop
  /-- Two closed blocks are disjoint or one lies strictly inside the other. -/
  nested : (blocks nodes).Pairwise fun b c => b.stop < nodes.length → c.stop < nodes.length →
    b.stop < c.start ∨ b.start < c.start ∧ c.stop < b.stop
  /-- The stack holds the blocks that are open, and these were opened before and neither ended nor
  given up by an earlier closer. -/
  isOpen : ∀ k ≤ nodes.length, ∀ i,
    (IsOpen nodes k i ↔ ∃ b ∈ (outline (nodes.take k)).stillOpen, b.start = i) ∧
    (IsOpen nodes k i ↔ (openerAt nodes i).isSome ∧ i < k ∧
      ∀ j < k, ¬ ClosedBy nodes i j ∧ ¬ DiscardedBy nodes i j)
  /-- What the closers end is where the blocks stop. -/
  closed : ∀ b ∈ blocks nodes, ∀ k < nodes.length, b.stop = k ↔ ClosedBy nodes b.start k
  /-- A closer that ends no block finds none of its kind open. -/
  idle : ∀ k kind, closerAt nodes k = some kind → (∀ b ∈ blocks nodes, b.stop ≠ k) →
    ∀ i, IsOpen nodes k i → openerAt nodes i ≠ some kind
  /-- A block that runs to the end is open there, or a later closer of the other kind has given it
  up. -/
  unclosed : ∀ b ∈ blocks nodes, b.stop = nodes.length →
    IsOpen nodes nodes.length b.start ∨
      ∃ k kind, b.start < k ∧ closerAt nodes k = some kind ∧ kind ≠ b.kind ∧
        DiscardedBy nodes b.start k

theorem blocks_rangesFit (nodes : List Node) : RangesFit nodes where
  starts := by
    refine ⟨?_, blocks_in_order nodes⟩
    intro b hb
    obtain ⟨n, -, -, hstop⟩ := opener_of_mem_blocks hb
    rw [hstop]
    exact mem_blocks.mp hb
  stops := by
    intro b hb
    rcases Nat.lt_or_eq_of_le (stop_le_length hb) with hlt | heq
    · have hclosed := (stop_eq_iff_closedBy hb hlt).mp rfl
      have ⟨kind, hc, _, ho⟩ := hclosed
      rw [openerAt_of_mem_blocks hb] at ho
      exact .inr ⟨hclosed.isOpen.lt, hc.trans ho.symm⟩
    · exact .inl heq
  apart := by
    refine (blocks_in_order nodes).imp_of_mem ?_
    intro b c hb hc hlt hbs heq
    have hbc := (stop_eq_iff_closedBy hb hbs).mp rfl
    have hcc := (stop_eq_iff_closedBy hc hbs).mp heq.symm
    exact absurd (hbc.opener_unique hcc) (Nat.ne_of_lt hlt)
  nested := by
    refine (blocks_in_order nodes).imp_of_mem ?_
    intro b c hb hc hlt hbs hcs
    rcases stop_lt_or_stop_lt hb hc hlt hbs hcs with h | h
    · exact .inl h
    · exact .inr ⟨hlt, h⟩
  isOpen := fun k hk i => ⟨(outline_take_reaches hk).isOpen_iff i, isOpen_iff⟩
  closed := fun b hb k hk => stop_eq_iff_closedBy hb hk
  idle := by
    intro k kind hc hidle i hi ho
    obtain ⟨j, hj⟩ := exists_closedBy hc hi ho
    obtain ⟨other, hother⟩ := hj.isOpen.opener
    obtain ⟨b, hb, rfl⟩ := mem_blocks_of_opener hother
    exact hidle b hb ((stop_eq_iff_closedBy hb hj.lt_length).mpr hj)
  unclosed := by
    intro b hb hend
    have ho := openerAt_of_mem_blocks hb
    by_cases hgiven : ∃ k, DiscardedBy nodes b.start k
    · obtain ⟨k, hk⟩ := hgiven
      have ⟨kind, hc, _, hne⟩ := hk
      rw [ho] at hne
      exact .inr ⟨k, kind, hk.isOpen.lt, hc, fun h => hne (congrArg some h.symm), hk⟩
    · refine .inl (isOpen_iff.mpr ⟨by simp [ho], ?_, ?_⟩)
      · obtain ⟨n, hn, -⟩ := mem_blocks.mp hb
        exact (List.getElem?_eq_some_iff.mp hn).1
      · intro j hj
        refine ⟨fun hc => ?_, fun hd => hgiven ⟨j, hd⟩⟩
        have hstop := (stop_eq_iff_closedBy hb hj).mpr hc
        omega

/-- The closer of the function gives up the macro inside, so the `endmacro` behind is a stray one,
and the macro runs to the end, across the other function. -/
example :
    let call (name : String) (arguments : List Argument) : Node :=
      .invocation ⟨name, arguments, ⟨0, 0⟩, 1⟩
    let nodes : List Node :=
      [call "function" [⟨.unquoted, "f"⟩], call "macro" [⟨.unquoted, "m"⟩],
        call "EndFunction" [], call "endmacro" [],
        call "function" [⟨.unquoted, "g"⟩], call "endfunction" []]
    (blocks nodes).map (fun b => (b.start, b.stop)) = [(0, 2), (1, 6), (4, 5)] ∧
      (outline nodes).events.countP Event.isStray = 1 := by decide

end CMakeManual.Manual
