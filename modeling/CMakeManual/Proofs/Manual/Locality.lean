import CMakeManual.Manual.Analysis
import CMakeManual.Proofs.Manual.Outline

/-! Locality. Nodes whose blocks match among themselves read the same wherever they stand, and the
blocks around them match as if they were not there. -/
namespace CMakeManual.Manual
open Script Vocabulary

/-- Matched alone, the nodes leave no block open, give up none and hold no closer without its
opener. -/
def SelfContained (seg : List Node) : Prop :=
  (outline seg).stillOpen = [] ∧ Undisturbed (outline seg).events

/-- Self-contained nodes leave every stack as they find it. -/
theorem SelfContained.outlineFrom_eq {seg : List Node} (h : SelfContained seg) (index : Nat)
    (stack : List OpenBlock) :
    outlineFrom index stack seg =
      ⟨(outline seg).closings.map (Prod.map (index + ·) (index + ·)), stack,
        (outline seg).events⟩ := by
  have hr : outlineFrom index [] seg = (outline seg).renumber (index + ·) :=
    outlineFrom_renumber (by simp) [] seg
  have hs : ∀ e ∈ (outlineFrom index [] seg).events, e.isStray = false := by
    rw [hr]
    exact fun e he => (h.2 e he).2
  have ho := outlineFrom_over hs stack
  rw [List.nil_append] at ho
  rw [ho, hr]
  simp [Outline.renumber, Outline.over, h.1]

/-- Where a node stands after `size` nodes are put in at `start`. -/
def around (start size i : Nat) : Nat := if i < start then i else i + size

theorem around_injective (start size : Nat) : Function.Injective (around start size) := by
  intro i j h
  unfold around at h
  split at h <;> split at h <;> omega

theorem around_of_lt {start i : Nat} (h : i < start) (size : Nat) : around start size i = i :=
  if_pos h

theorem around_add (start size k : Nat) : around start size (start + k) = start + size + k := by
  rw [around, if_neg (by omega)]
  omega

theorem around_ne_add {start size i k : Nat} (hk : k < size) : around start size i ≠ start + k := by
  unfold around
  split <;> omega

theorem lookup_map_injective {f : Nat → Nat} (hf : Function.Injective f) (l : List (Nat × Nat))
    (i : Nat) : (l.map (Prod.map f f)).lookup (f i) = (l.lookup i).map f := by
  induction l with
  | nil => rfl
  | cons c l ih =>
    by_cases hc : i = c.1
    · rw [hc, List.map_cons, Prod.map, List.lookup_cons_self, List.lookup_cons_self]
      rfl
    · have hfc : f i ≠ f c.1 := fun he => hc (hf he)
      rw [List.map_cons, Prod.map, List.lookup_cons, List.lookup_cons,
        beq_eq_false_iff_ne.2 hc, beq_eq_false_iff_ne.2 hfc]
      exact ih

/-- What is put in does not answer for the nodes around it. -/
theorem lookup_around {before inner : List (Nat × Nat)} {start size : Nat}
    (hb : ∀ c ∈ before, c.1 < start ∧ c.2 < start) (hi : ∀ c ∈ inner, c.1 < size)
    (after : List (Nat × Nat)) (i : Nat) :
    (before ++ inner.map (Prod.map (start + ·) (start + ·)) ++
        after.map (Prod.map (around start size) (around start size))).lookup
          (around start size i) =
      ((before ++ after).lookup i).map (around start size) := by
  have hbefore : before.map (Prod.map (around start size) (around start size)) = before := by
    refine (List.map_congr_left ?_).trans (List.map_id _)
    intro c hc
    rw [Prod.map, around_of_lt (hb c hc).1, around_of_lt (hb c hc).2]
    rfl
  have hinner : (inner.map (Prod.map (start + ·) (start + ·))).lookup (around start size i) =
      none := by
    rw [List.lookup_eq_none_iff]
    intro c hc
    obtain ⟨d, hd, rfl⟩ := List.mem_map.1 hc
    simpa using around_ne_add (hi d hd)
  have hinj := around_injective start size
  rw [List.lookup_append, List.lookup_append, hinner, Option.or_none, ← hbefore,
    lookup_map_injective hinj, lookup_map_injective hinj, hbefore, List.lookup_append]
  cases before.lookup i <;> rfl

/-- What stands before does not answer for the nodes put in. -/
theorem lookup_inside {before : List (Nat × Nat)} {start : Nat} (h : ∀ c ∈ before, c.1 < start)
    {inner : List (Nat × Nat)} {i stop : Nat} (hi : inner.lookup i = some stop)
    (after : List (Nat × Nat)) :
    (before ++ inner.map (Prod.map (start + ·) (start + ·)) ++ after).lookup (start + i) =
      some (start + stop) := by
  have hbefore : before.lookup (start + i) = none := by
    rw [List.lookup_eq_none_iff]
    intro c hc
    have := h c hc
    simp only [bne_iff_ne, ne_eq]
    omega
  have hinj : Function.Injective (start + ·) := fun i j h => Nat.add_left_cancel h
  have hinner := lookup_map_injective hinj inner i
  rw [List.lookup_append, List.lookup_append, hbefore, Option.none_or, hinner, hi]
  rfl

/-- The closings around self-contained nodes are those without them, renumbered. -/
theorem SelfContained.outline_insert {seg : List Node} (h : SelfContained seg)
    (pre post : List Node) :
    ∃ before after : List (Nat × Nat),
      (∀ c ∈ before, c.1 < pre.length ∧ c.2 < pre.length) ∧
      (outline (pre ++ post)).closings = before ++ after ∧
      (outline (pre ++ seg ++ post)).closings =
        before ++ (outline seg).closings.map (Prod.map (pre.length + ·) (pre.length + ·)) ++
          after.map (Prod.map (around pre.length seg.length) (around pre.length seg.length)) := by
  have hpre := outline_within pre
  refine ⟨(outline pre).closings,
    (outlineFrom pre.length (outline pre).stillOpen post).closings, ?_, ?_, ?_⟩
  · intro c hc
    have := hpre.1 c hc
    omega
  · simp only [outline, outlineFrom_append, Nat.zero_add]
  · -- The blocks that `pre` leaves open stand before the gap, so they keep their places.
    have hfix : (outline pre).stillOpen.map (OpenBlock.renumber (around pre.length seg.length)) =
        (outline pre).stillOpen := by
      refine (List.map_congr_left ?_).trans (List.map_id _)
      intro b hb
      rw [OpenBlock.renumber, around_of_lt (hpre.2 b hb)]
      rfl
    have hpost :=
      outlineFrom_renumber (around_add pre.length seg.length) (outline pre).stillOpen post
    rw [hfix] at hpost
    have hseg := h.outlineFrom_eq pre.length (outline pre).stillOpen
    simp only [outline] at hseg hpost ⊢
    simp only [outlineFrom_append, Nat.zero_add, List.length_append, hseg, hpost,
      Outline.renumber]

/-- The opener of the block that the node at `stop` closes, if it closes one. -/
def openerOf (nodes : List Node) (stop : Nat) : Option Nat :=
  ((outline nodes).closings.map Prod.swap).lookup stop

/-- A block around self-contained nodes stops where it stops without them. -/
theorem SelfContained.blockStop_around {seg : List Node} (h : SelfContained seg)
    (pre post : List Node) (i : Nat) :
    blockStop (pre ++ seg ++ post) (around pre.length seg.length i) =
      around pre.length seg.length (blockStop (pre ++ post) i) := by
  obtain ⟨before, after, hb, hpp, hps⟩ := h.outline_insert pre post
  have hseg : ∀ c ∈ (outline seg).closings, c.1 < seg.length := by
    intro c hc
    have := (outline_within seg).1 c hc
    omega
  have hend : (pre ++ seg ++ post).length =
      around pre.length seg.length (pre ++ post).length := by
    simp only [List.length_append, around_add]
  rw [blockStop, blockStop, hps, hpp, lookup_around hb hseg, hend]
  cases (before ++ after).lookup i <;> rfl

/-- A closer around self-contained nodes closes what it closes without them. -/
theorem SelfContained.openerOf_around {seg : List Node} (h : SelfContained seg)
    (pre post : List Node) (i : Nat) :
    openerOf (pre ++ seg ++ post) (around pre.length seg.length i) =
      (openerOf (pre ++ post) i).map (around pre.length seg.length) := by
  obtain ⟨before, after, hb, hpp, hps⟩ := h.outline_insert pre post
  have hseg : ∀ c ∈ (outline seg).closings.map Prod.swap, c.1 < seg.length := by
    intro c hc
    obtain ⟨d, hd, rfl⟩ := List.mem_map.1 hc
    exact ((outline_within seg).1 d hd).2
  have hbefore : ∀ c ∈ before.map Prod.swap, c.1 < pre.length ∧ c.2 < pre.length := by
    intro c hc
    obtain ⟨d, hd, rfl⟩ := List.mem_map.1 hc
    exact (hb d hd).symm
  have hswap : ∀ (f : Nat → Nat) (l : List (Nat × Nat)),
      (l.map (Prod.map f f)).map Prod.swap = (l.map Prod.swap).map (Prod.map f f) := by
    intro f l
    simp only [List.map_map]
    rfl
  rw [openerOf, openerOf, hps, hpp, List.map_append, List.map_append, List.map_append, hswap,
    hswap, lookup_around hbefore hseg]

theorem exists_lookup_of_mem {l : List (Nat × Nat)} {i j : Nat} (h : (i, j) ∈ l) :
    ∃ stop, l.lookup i = some stop := by
  cases hl : l.lookup i with
  | some stop => exact ⟨stop, rfl⟩
  | none =>
    have := List.lookup_eq_none_iff.1 hl (i, j) h
    simp at this

/-- Every named opener among self-contained nodes has its closer there. -/
theorem SelfContained.lookup_opener {seg : List Node} (h : SelfContained seg) {i : Nat} {n : Node}
    (hn : seg[i]? = some n) {kind : BlockKind} (ho : opensBlock? n = some kind) :
    ∃ stop, (outline seg).closings.lookup i = some stop := by
  have ha : (outline seg).Accounts (0 + i) := outlineFrom_accounts_opener h.2 hn ho
  rw [Nat.zero_add] at ha
  rcases ha with ⟨stop, hs⟩ | ⟨b, hb, -⟩
  · exact exists_lookup_of_mem hs
  · rw [h.1] at hb
    exact absurd hb List.not_mem_nil

/-- A block of self-contained nodes stops where it stops when they stand alone. -/
theorem SelfContained.blockStop_inside {seg : List Node} (h : SelfContained seg)
    (pre post : List Node) {i : Nat} {n : Node} (hn : seg[i]? = some n) {kind : BlockKind}
    (ho : opensBlock? n = some kind) :
    blockStop (pre ++ seg ++ post) (pre.length + i) = pre.length + blockStop seg i := by
  obtain ⟨before, after, hb, -, hps⟩ := h.outline_insert pre post
  obtain ⟨stop, hstop⟩ := h.lookup_opener hn ho
  have hbefore : ∀ c ∈ before, c.1 < pre.length := fun c hc => (hb c hc).1
  rw [blockStop, blockStop, hps, lookup_inside hbefore hstop, hstop]
  rfl

def Block.renumber (f : Nat → Nat) (b : Block) : Block :=
  { b with start := f b.start, stop := f b.stop }

/-- What a block or callable is, apart from its places and its body: its kind, name, parameters
and line. -/
abbrev Signature := BlockKind × String × List String × Nat

def Block.signature (b : Block) : Signature := (b.kind, b.name, b.parameters, b.line)

def Callable.signature (c : Callable) : Signature := (c.kind, c.name, c.parameters, c.line)

theorem map_renumber_signature (f : Nat → Nat) (bs : List Block) :
    (bs.map (Block.renumber f)).map Block.signature = bs.map Block.signature := by
  rw [List.map_map]
  rfl

theorem map_callable_signature (policy : Requiredness) (nodes : List Node) (bs : List Block) :
    (bs.map fun b => b.callable policy nodes).map Callable.signature =
      bs.map Block.signature := by
  rw [List.map_map]
  rfl

/-- A node opens a block or none, wherever it stands. -/
theorem openedBlock?_cases (n : Node) :
    (opensBlock? n = none ∧ ∀ start stop, openedBlock? start stop n = none) ∨
    ∃ kind name parameters line, opensBlock? n = some kind ∧
      ∀ start stop, openedBlock? start stop n =
        some ⟨kind, name, parameters, line, start, stop⟩ := by
  cases n with
  | comment text => exact .inl ⟨rfl, fun _ _ => rfl⟩
  | blankLine line => exact .inl ⟨rfl, fun _ _ => rfl⟩
  | invocation command =>
    simp only [opensBlock?, openedBlock?, Node.invocation?, Option.bind_some]
    cases hr : Role.ofName? command.name with
    | none => simp
    | some role =>
      cases role with
      | opens kind =>
        cases ha : command.arguments with
        | nil => simp
        | cons name parameters => simp
      | closes kind => simp
      | assigns => simp
      | parsesArguments => simp

/-- The blocks that nodes at `index` and behind open, each with its stop. -/
def openedFrom (index : Nat) (stop : Nat → Nat) (ns : List Node) : List Block :=
  (ns.zipIdx index).filterMap fun n => openedBlock? n.2 (stop n.2) n.1

theorem blocks_eq_openedFrom (ns : List Node) : blocks ns = openedFrom 0 (blockStop ns) ns := rfl

theorem openedFrom_cons (index : Nat) (stop : Nat → Nat) (n : Node) (ns : List Node) :
    openedFrom index stop (n :: ns) =
      (openedBlock? index (stop index) n).toList ++ openedFrom (index + 1) stop ns := by
  unfold openedFrom
  rw [List.zipIdx_cons, List.filterMap_cons]
  cases openedBlock? index (stop index) n <;> rfl

theorem openedFrom_append (index : Nat) (stop : Nat → Nat) (ns ms : List Node) :
    openedFrom index stop (ns ++ ms) =
      openedFrom index stop ns ++ openedFrom (index + ns.length) stop ms := by
  simp only [openedFrom, List.zipIdx_append, List.filterMap_append]

/-- Places and stops aside, the blocks of nodes do not depend on what stands around them. -/
theorem openedFrom_signature (index start : Nat) (stop stop' : Nat → Nat) (ns : List Node) :
    (openedFrom index stop ns).map Block.signature =
      (openedFrom start stop' ns).map Block.signature := by
  induction ns generalizing index start with
  | nil => rfl
  | cons n ns ih =>
    simp only [openedFrom_cons, List.map_append, ih (index + 1) (start + 1)]
    rcases openedBlock?_cases n with ⟨-, hn⟩ | ⟨kind, name, parameters, line, -, hn⟩
    · simp only [hn]
    · simp only [hn]
      rfl

theorem openedFrom_renumber {f stop stop' : Nat → Nat} {index start : Nat} {ns : List Node}
    (hf : ∀ k < ns.length, f (index + k) = start + k)
    (hs : ∀ k n kind, ns[k]? = some n → opensBlock? n = some kind →
      stop' (start + k) = f (stop (index + k))) :
    openedFrom start stop' ns = (openedFrom index stop ns).map (Block.renumber f) := by
  induction ns generalizing index start with
  | nil => rfl
  | cons n ns ih =>
    have h0 : f index = start := hf 0 (by simp)
    have hf' : ∀ k < ns.length, f (index + 1 + k) = start + 1 + k := by
      intro k hk
      rw [Nat.add_right_comm index, Nat.add_right_comm start]
      exact hf (k + 1) (Nat.succ_lt_succ hk)
    have hs' : ∀ k m kind, ns[k]? = some m → opensBlock? m = some kind →
        stop' (start + 1 + k) = f (stop (index + 1 + k)) := by
      intro k m kind hm hk
      rw [Nat.add_right_comm index, Nat.add_right_comm start]
      exact hs (k + 1) m kind hm hk
    rw [openedFrom_cons, openedFrom_cons, List.map_append, ih hf' hs']
    rcases openedBlock?_cases n with ⟨-, hn⟩ | ⟨kind, name, parameters, line, ho, hn⟩
    · rw [hn, hn]
      rfl
    · have hstop : stop' start = f (stop index) := hs 0 n kind rfl ho
      rw [hn, hn, hstop, ← h0]
      rfl

/-- The blocks around self-contained nodes are those without them, renumbered, and theirs stand
between. -/
theorem SelfContained.blocks_insert {seg : List Node} (h : SelfContained seg)
    (pre post : List Node) :
    ∃ before after : List Block,
      before.map Block.signature = (blocks pre).map Block.signature ∧
      after.map Block.signature = (blocks post).map Block.signature ∧
      blocks (pre ++ post) = before ++ after ∧
      blocks (pre ++ seg ++ post) =
        before.map (Block.renumber (around pre.length seg.length)) ++
          (blocks seg).map (Block.renumber (pre.length + ·)) ++
          after.map (Block.renumber (around pre.length seg.length)) := by
  refine ⟨openedFrom 0 (blockStop (pre ++ post)) pre,
    openedFrom pre.length (blockStop (pre ++ post)) post, openedFrom_signature ..,
    openedFrom_signature .., ?_, ?_⟩
  · rw [blocks_eq_openedFrom, openedFrom_append, Nat.zero_add]
  · have hpre : openedFrom 0 (blockStop (pre ++ seg ++ post)) pre =
        (openedFrom 0 (blockStop (pre ++ post)) pre).map
          (Block.renumber (around pre.length seg.length)) := by
      have hfix : ∀ k < pre.length, around pre.length seg.length (0 + k) = 0 + k := by
        intro k hk
        rw [Nat.zero_add, around_of_lt hk]
      apply openedFrom_renumber hfix
      intro k n kind hn _
      have hk : k < pre.length := (List.getElem?_eq_some_iff.1 hn).1
      rw [← h.blockStop_around, hfix k hk]
    have hseg : openedFrom pre.length (blockStop (pre ++ seg ++ post)) seg =
        (blocks seg).map (Block.renumber (pre.length + ·)) := by
      apply openedFrom_renumber
      · intro k _
        rw [Nat.zero_add]
      · intro k n kind hn ho
        rw [h.blockStop_inside pre post hn ho, Nat.zero_add]
    have hpost : openedFrom (pre.length + seg.length) (blockStop (pre ++ seg ++ post)) post =
        (openedFrom pre.length (blockStop (pre ++ post)) post).map
          (Block.renumber (around pre.length seg.length)) := by
      apply openedFrom_renumber
      · intro k _
        exact around_add pre.length seg.length k
      · intro k n kind _ _
        rw [← h.blockStop_around, around_add]
    rw [blocks_eq_openedFrom, openedFrom_append, openedFrom_append, Nat.zero_add, Nat.zero_add,
      List.length_append, hpre, hseg, hpost]

theorem mem_blocks {ns : List Node} {b : Block} :
    b ∈ blocks ns ↔ ∃ n, ns[b.start]? = some n ∧
      openedBlock? b.start (blockStop ns b.start) n = some b := by
  simp only [blocks, List.mem_filterMap, List.mem_zipIdx_iff_getElem?]
  constructor
  · rintro ⟨⟨n, i⟩, hn, hb⟩
    have hi : b.start = i := by
      rcases openedBlock?_cases n with ⟨-, h⟩ | ⟨kind, name, parameters, line, -, h⟩
      · simp [h] at hb
      · rw [h] at hb
        exact (congrArg Block.start (Option.some.inj hb)).symm
    exact ⟨n, hi ▸ hn, hi ▸ hb⟩
  · rintro ⟨n, hn, hb⟩
    exact ⟨(n, b.start), hn, hb⟩

/-- A block starts at an opener of its kind and stops where matching says. -/
theorem opener_of_mem_blocks {ns : List Node} {b : Block} (hb : b ∈ blocks ns) :
    ∃ n, ns[b.start]? = some n ∧ opensBlock? n = some b.kind ∧ b.stop = blockStop ns b.start := by
  obtain ⟨n, hn, ho⟩ := mem_blocks.1 hb
  rcases openedBlock?_cases n with ⟨-, h⟩ | ⟨kind, name, parameters, line, hk, h⟩
  · simp [h] at ho
  · rw [h] at ho
    have hkind : kind = b.kind := congrArg Block.kind (Option.some.inj ho)
    have hstop := congrArg Block.stop (Option.some.inj ho)
    exact ⟨n, hn, hkind ▸ hk, hstop.symm⟩

theorem blockStop_le_length (ns : List Node) (start : Nat) : blockStop ns start ≤ ns.length := by
  unfold blockStop
  cases h : (outline ns).closings.lookup start with
  | none => exact Nat.le_refl _
  | some stop =>
    obtain ⟨l, r, hl, -⟩ := List.lookup_eq_some_iff.1 h
    have := (outline_within ns).1 (start, stop) (by simp [hl])
    exact Nat.le_of_lt this.2

/-- A body does not change with what stands around the nodes. -/
theorem body_renumber {b : Block} {seg : List Node} (h : b.stop ≤ seg.length)
    (pre post : List Node) :
    (b.renumber (pre.length + ·)).body (pre ++ seg ++ post) = b.body seg := by
  unfold Block.body Block.renumber
  rw [List.append_assoc, List.take_length_add_append, List.take_append_of_le_length h,
    Nat.add_assoc, List.drop_length_add_append]

/-- The blocks of nodes keep their bodies wherever the nodes stand. -/
theorem body_inside {seg : List Node} {b : Block} (hb : b ∈ blocks seg) (pre post : List Node) :
    (b.renumber (pre.length + ·)).body (pre ++ seg ++ post) = b.body seg := by
  obtain ⟨n, -, -, hstop⟩ := opener_of_mem_blocks hb
  exact body_renumber (hstop ▸ blockStop_le_length seg b.start) pre post

/-- The callables of `pre` come first, then those of `seg` with the keyword arguments that they
have alone, then those of `post`. -/
def CallablesInOrder (policy : Requiredness) (pre seg post : List Node) : Prop :=
  ∃ before inside after,
    callables policy (pre ++ seg ++ post) = before ++ inside ++ after ∧
    before.map Callable.signature = (callables policy pre).map Callable.signature ∧
    inside.map Callable.signature = (callables policy seg).map Callable.signature ∧
    inside.map Callable.specs = (callables policy seg).map Callable.specs ∧
    after.map Callable.signature = (callables policy post).map Callable.signature

theorem SelfContained.callablesInOrder {seg : List Node} (h : SelfContained seg)
    (policy : Requiredness) (pre post : List Node) : CallablesInOrder policy pre seg post := by
  obtain ⟨before, after, hbefore, hafter, -, hblocks⟩ := h.blocks_insert pre post
  let read (bs : List Block) := bs.map fun b => b.callable policy (pre ++ seg ++ post)
  refine ⟨read (before.map (Block.renumber (around pre.length seg.length))),
    read ((blocks seg).map (Block.renumber (pre.length + ·))),
    read (after.map (Block.renumber (around pre.length seg.length))), ?_, ?_, ?_, ?_, ?_⟩
  · rw [callables, hblocks, List.map_append, List.map_append]
  · rw [map_callable_signature, map_renumber_signature, hbefore, callables, map_callable_signature]
  · rw [map_callable_signature, map_renumber_signature, callables, map_callable_signature]
  · rw [callables, List.map_map, List.map_map, List.map_map]
    apply List.map_congr_left
    intro b hb
    show (resolveBody policy _).specs = (resolveBody policy _).specs
    rw [body_inside hb pre post]
  · rw [map_callable_signature, map_renumber_signature, hafter, callables, map_callable_signature]

end CMakeManual.Manual
