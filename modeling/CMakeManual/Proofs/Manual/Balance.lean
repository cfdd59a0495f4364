import CMakeManual.Proofs.Manual.Locality

/-! Balanced nodes, and what stands between arbitrary others. Blocks that nest properly match among
themselves, so locality applies to them at every depth. -/
namespace CMakeManual.Manual
open Script Vocabulary

/-- Blocks follow and contain each other, every opener with its closer behind it. -/
inductive Balanced : List Node → Prop
  | nil : Balanced []
  | plain {n : Node} {rest : List Node} (ho : opensBlock? n = none) (hc : closesBlock? n = none)
      (hr : Balanced rest) : Balanced (n :: rest)
  | block {kind : BlockKind} {opener closer : Node} {inner rest : List Node}
      (ho : opensBlock? opener = some kind) (hc : closesBlock? closer = some kind)
      (hi : Balanced inner) (hr : Balanced rest) : Balanced (opener :: (inner ++ closer :: rest))

theorem opensBlock?_of_closes {n : Node} {kind : BlockKind} (h : closesBlock? n = some kind) :
    opensBlock? n = none := by
  rcases nodeOutline_cases n with ⟨k, e, -, hc, -, -⟩ | ⟨k, line, ho, -, -⟩ | ⟨es, ho, -, -, -⟩
  · simp [h] at hc
  · exact ho
  · exact ho

theorem nodeOutline_opener {n : Node} {kind : BlockKind} (h : opensBlock? n = some kind) :
    ∃ e, Undisturbed [e] ∧
      ∀ index stack, nodeOutline index stack n = ⟨[], ⟨kind, index⟩ :: stack, [e]⟩ := by
  rcases nodeOutline_cases n with ⟨k, e, ho, -, he, hn⟩ | ⟨k, line, ho, -, -⟩ | ⟨es, ho, -, -, -⟩
  · obtain rfl : k = kind := by simpa [h] using ho.symm
    exact ⟨e, he, hn⟩
  · simp [h] at ho
  · simp [h] at ho

/-- A closer right above its opener ends that block and nothing else. -/
theorem nodeOutline_closer {n : Node} {kind : BlockKind} (h : closesBlock? n = some kind)
    (index start : Nat) (stack : List OpenBlock) :
    nodeOutline index (⟨kind, start⟩ :: stack) n = ⟨[(start, index)], stack, []⟩ := by
  rcases nodeOutline_cases n with ⟨k, e, -, hc, -, -⟩ | ⟨k, line, -, hc, hn⟩ | ⟨es, -, hc, -, -⟩
  · simp [h] at hc
  · obtain rfl : k = kind := by simpa [h] using hc.symm
    have hnone : ∀ b ∈ ([] : List OpenBlock), b.kind ≠ k := by simp
    rw [hn]
    exact closeBlock_found hnone rfl index line
  · simp [h] at hc

/-- A whole block adds the closing of its opener to those of its body. -/
theorem outlineFrom_block {kind : BlockKind} {opener closer : Node} {inner : List Node}
    (ho : opensBlock? opener = some kind) (hc : closesBlock? closer = some kind)
    (hi : SelfContained inner) :
    ∃ e, Undisturbed [e] ∧ ∀ index stack rest,
      outlineFrom index stack (opener :: (inner ++ closer :: rest)) =
        let behind := outlineFrom (index + 1 + inner.length + 1) stack rest
        ⟨(outline inner).closings.map (Prod.map (index + 1 + ·) (index + 1 + ·)) ++
            (index, index + 1 + inner.length) :: behind.closings,
          behind.stillOpen, [e] ++ ((outline inner).events ++ behind.events)⟩ := by
  obtain ⟨e, he, hn⟩ := nodeOutline_opener ho
  refine ⟨e, he, ?_⟩
  intro index stack rest
  simp only [outlineFrom, hn, outlineFrom_append, hi.outlineFrom_eq, nodeOutline_closer hc,
    List.nil_append, List.cons_append]

theorem Balanced.selfContained {ns : List Node} (h : Balanced ns) : SelfContained ns := by
  induction h with
  | nil => exact ⟨rfl, by simp [outline, outlineFrom, Undisturbed]⟩
  | @plain n rest ho hc _ ih =>
    rcases nodeOutline_cases n with ⟨k, e, hk, -, -, -⟩ | ⟨k, line, -, hk, -⟩ | ⟨es, -, -, he, hn⟩
    · simp [ho] at hk
    · simp [hc] at hk
    · constructor
      · show (outlineFrom (0 + 1) (nodeOutline 0 [] n).stillOpen rest).stillOpen = []
        rw [hn, ih.outlineFrom_eq]
      · show Undisturbed ((nodeOutline 0 [] n).events ++
          (outlineFrom (0 + 1) (nodeOutline 0 [] n).stillOpen rest).events)
        rw [hn, ih.outlineFrom_eq]
        exact undisturbed_append.2 ⟨he, ih.2⟩
  | @block kind opener closer inner rest ho hc _ _ hi hr =>
    obtain ⟨e, he, hblock⟩ := outlineFrom_block ho hc hi
    have hrun : outline (opener :: (inner ++ closer :: rest)) = _ := hblock 0 [] rest
    rw [SelfContained, hrun, hr.outlineFrom_eq]
    exact ⟨rfl, undisturbed_append.2 ⟨he, undisturbed_append.2 ⟨hi.2, hr.2⟩⟩⟩

/-- The block ends at a closer of its kind, and what lies between is balanced. -/
def Block.EndsAtOwnCloser (b : Block) (ns : List Node) : Prop :=
  ∃ before opener inner closer after,
    ns = before ++ opener :: (inner ++ closer :: after) ∧
    b.start = before.length ∧ opensBlock? opener = some b.kind ∧
    b.stop = before.length + 1 + inner.length ∧ closesBlock? closer = some b.kind ∧
    Balanced inner ∧ b.body ns = inner

theorem Block.EndsAtOwnCloser.renumber {b : Block} {seg : List Node} (h : b.EndsAtOwnCloser seg)
    (pre post : List Node) :
    (b.renumber (pre.length + ·)).EndsAtOwnCloser (pre ++ seg ++ post) := by
  obtain ⟨before, opener, inner, closer, after, hseg, hstart, ho, hstop, hc, hi, hbody⟩ := h
  refine ⟨pre ++ before, opener, inner, closer, after ++ post, ?_, ?_, ho, ?_, hc, hi, ?_⟩
  · simp [hseg]
  · rw [Block.renumber, hstart, List.length_append]
  · show pre.length + b.stop = (pre ++ before).length + 1 + inner.length
    rw [hstop, List.length_append]
    omega
  · have hle : b.stop ≤ seg.length := by
      simp only [hstop, hseg, List.length_append, List.length_cons]
      omega
    rw [body_renumber hle, hbody]

/-- A block that opens among self-contained nodes is one of theirs. -/
theorem SelfContained.block_inside {pre seg post : List Node} (h : SelfContained seg) {b : Block}
    (hb : b ∈ blocks (pre ++ seg ++ post)) (h1 : pre.length ≤ b.start)
    (h2 : b.start < pre.length + seg.length) :
    ∃ c ∈ blocks seg, b = c.renumber (pre.length + ·) := by
  obtain ⟨n, hn, ho⟩ := mem_blocks.1 hb
  obtain ⟨i, hi⟩ := Nat.exists_eq_add_of_le h1
  have hlt : i < seg.length := by omega
  have hseg : seg[i]? = some n := by
    rw [hi, List.append_assoc, List.getElem?_append_right (by omega)] at hn
    rwa [Nat.add_sub_cancel_left, List.getElem?_append_left hlt] at hn
  rcases openedBlock?_cases n with ⟨-, hnone⟩ | ⟨kind, name, parameters, line, hk, hsome⟩
  · simp [hnone] at ho
  · rw [hsome, hi, h.blockStop_inside pre post hseg hk] at ho
    refine ⟨⟨kind, name, parameters, line, i, blockStop seg i⟩, ?_, (Option.some.inj ho).symm⟩
    exact mem_blocks.2 ⟨n, hseg, hsome i (blockStop seg i)⟩

/-- The opener of a block finds the closer behind its balanced body. -/
theorem blockStop_block {kind : BlockKind} {opener closer : Node} {inner : List Node}
    (ho : opensBlock? opener = some kind) (hc : closesBlock? closer = some kind)
    (hi : SelfContained inner) (rest : List Node) :
    blockStop (opener :: (inner ++ closer :: rest)) 0 = 1 + inner.length := by
  obtain ⟨e, -, hblock⟩ := outlineFrom_block ho hc hi
  have hrun : outline (opener :: (inner ++ closer :: rest)) = _ := hblock 0 [] rest
  have hbody : ((outline inner).closings.map (Prod.map (0 + 1 + ·) (0 + 1 + ·))).lookup 0 =
      none := by
    rw [List.lookup_eq_none_iff]
    intro c hc
    obtain ⟨d, -, rfl⟩ := List.mem_map.1 hc
    simp only [Prod.map_fst, bne_iff_ne, ne_eq]
    omega
  rw [blockStop, hrun, List.lookup_append, hbody]
  simp

/-- What the blocks of self-contained nodes end at does not depend on what stands around. -/
theorem SelfContained.endsAtOwnCloser_inside {pre seg post : List Node} (h : SelfContained seg)
    (hseg : ∀ c ∈ blocks seg, c.EndsAtOwnCloser seg) {b : Block}
    (hb : b ∈ blocks (pre ++ seg ++ post)) (h1 : pre.length ≤ b.start)
    (h2 : b.start < pre.length + seg.length) : b.EndsAtOwnCloser (pre ++ seg ++ post) := by
  obtain ⟨c, hc, rfl⟩ := h.block_inside hb h1 h2
  exact (hseg c hc).renumber pre post

theorem endsAtOwnCloser_opener {kind : BlockKind} {opener closer : Node} {inner rest : List Node}
    (ho : opensBlock? opener = some kind) (hc : closesBlock? closer = some kind)
    (hi : Balanced inner) {b : Block} (hb : b ∈ blocks (opener :: (inner ++ closer :: rest)))
    (hs : b.start = 0) : b.EndsAtOwnCloser (opener :: (inner ++ closer :: rest)) := by
  obtain ⟨m, hm, hk, hstop⟩ := opener_of_mem_blocks hb
  obtain rfl : opener = m := by simpa [hs] using hm
  obtain rfl : kind = b.kind := by simpa [ho] using hk
  rw [hs, blockStop_block ho hc hi.selfContained] at hstop
  refine ⟨[], opener, inner, closer, rest, rfl, hs, ho, ?_, hc, hi, ?_⟩
  · simpa using hstop
  · rw [Block.body, hs, hstop, Nat.add_comm 1, List.take_succ_cons, List.drop_succ_cons,
      List.take_left, List.drop_zero]

/-- In balanced nodes every block ends at its own closer. -/
theorem Balanced.endsAtOwnCloser {ns : List Node} (h : Balanced ns) :
    ∀ b ∈ blocks ns, b.EndsAtOwnCloser ns := by
  induction h with
  | nil => simp [blocks]
  | @plain n rest ho hc hr ih =>
    intro b hb
    obtain ⟨m, hm, hk, -⟩ := opener_of_mem_blocks hb
    have hlen := (List.getElem?_eq_some_iff.1 hm).1
    by_cases hs : b.start = 0
    · obtain rfl : n = m := by simpa [hs] using hm
      simp [ho] at hk
    · have hnodes : n :: rest = [n] ++ rest ++ [] := by simp
      rw [hnodes] at hb ⊢
      apply hr.selfContained.endsAtOwnCloser_inside ih hb
      · exact Nat.one_le_iff_ne_zero.2 hs
      · simp only [List.length_cons, List.length_nil] at hlen ⊢
        omega
  | @block kind opener closer inner rest ho hc hi hr ihi ihr =>
    intro b hb
    obtain ⟨m, hm, hk, -⟩ := opener_of_mem_blocks hb
    have hlen := (List.getElem?_eq_some_iff.1 hm).1
    simp only [List.length_cons, List.length_append] at hlen
    -- The block opens at the opener, in the body, at the closer or behind it.
    by_cases h0 : b.start = 0
    · exact endsAtOwnCloser_opener ho hc hi hb h0
    by_cases h1 : b.start < 1 + inner.length
    · have hnodes : opener :: (inner ++ closer :: rest) = [opener] ++ inner ++ closer :: rest := by
        simp
      rw [hnodes] at hb ⊢
      exact hi.selfContained.endsAtOwnCloser_inside ihi hb (Nat.one_le_iff_ne_zero.2 h0) h1
    by_cases h2 : b.start = inner.length + 1
    · obtain rfl : closer = m := by simpa [h2] using hm
      simp [opensBlock?_of_closes hc] at hk
    · have hnodes : opener :: (inner ++ closer :: rest) =
          (opener :: (inner ++ [closer])) ++ rest ++ [] := by simp
      rw [hnodes] at hb ⊢
      apply hr.selfContained.endsAtOwnCloser_inside ihr hb
      · simp only [List.length_cons, List.length_append, List.length_nil]
        omega
      · simp only [List.length_cons, List.length_append, List.length_nil]
        omega

/-- `seg` reads between `pre` and `post` as it does alone, and they match as they do without it. -/
structure ReadsApart (policy : Requiredness) (pre seg post : List Node) : Prop where
  ordered : CallablesInOrder policy pre seg post
  /-- Every block keeps its places up to the insertion. -/
  placed : ∃ before after,
    before.map Block.signature = (blocks pre).map Block.signature ∧
    after.map Block.signature = (blocks post).map Block.signature ∧
    blocks (pre ++ post) = before ++ after ∧
    blocks (pre ++ seg ++ post) =
      before.map (Block.renumber (around pre.length seg.length)) ++
        (blocks seg).map (Block.renumber (pre.length + ·)) ++
        after.map (Block.renumber (around pre.length seg.length))
  /-- The blocks of `seg` keep their bodies. -/
  bodies : ∀ b ∈ blocks seg,
    (b.renumber (pre.length + ·)).body (pre ++ seg ++ post) = b.body seg
  /-- A closer in `pre` or `post` closes the opener that it closes without `seg`, or none. -/
  openers : ∀ i < (pre ++ post).length,
    openerOf (pre ++ seg ++ post) (around pre.length seg.length i) =
      (openerOf (pre ++ post) i).map (around pre.length seg.length)

/-- Self-contained nodes read apart from whatever stands around them, balanced or not; balanced
nodes are self-contained, and each of their bodies ends at its own closer. -/
theorem selfContained_readsApart (policy : Requiredness) :
    (∀ pre seg post, SelfContained seg → ReadsApart policy pre seg post) ∧
    ∀ ns, Balanced ns → SelfContained ns ∧ ∀ b ∈ blocks ns, b.EndsAtOwnCloser ns := by
  constructor
  · intro pre seg post h
    exact
      { ordered := h.callablesInOrder policy pre post
        placed := h.blocks_insert pre post
        bodies := fun b hb => body_inside hb pre post
        openers := fun i _ => h.openerOf_around pre post i }
  · intro ns h
    exact ⟨h.selfContained, h.endsAtOwnCloser⟩

/-- A command whose places do not matter. -/
def bareCall (name : String) (arguments : List String) : Node :=
  .invocation ⟨name, arguments.map (⟨.unquoted, ·⟩), ⟨0, 0⟩, 1⟩

/-- A function inside a macro. -/
def nestedBlocks : List Node :=
  bareCall "macro" ["g"] ::
    ((bareCall "function" ["h", "x"] ::
      ([bareCall "set" ["y"]] ++ bareCall "endfunction" [] :: [])) ++
    bareCall "endmacro" [] :: [])

theorem nestedBlocks_balanced : Balanced nestedBlocks := by
  have hset : Balanced [bareCall "set" ["y"]] := .plain rfl rfl .nil
  have hfunction : opensBlock? (bareCall "function" ["h", "x"]) = some .functionBlock := rfl
  have hmacro : opensBlock? (bareCall "macro" ["g"]) = some .macroBlock := rfl
  exact .block hmacro rfl (.block hfunction rfl hset .nil) .nil

/-- Around them stand a stray closer, a function and closers that give that function up. -/
theorem selfContained_readsApart_nestedBlocks :
    Balanced nestedBlocks ∧
    (blocks nestedBlocks).map (fun b => (b.start, b.stop)) = [(0, 4), (1, 3)] ∧
    ReadsApart .byValidationCall [bareCall "endmacro" [], bareCall "function" ["f"]] nestedBlocks
      [bareCall "endmacro" [], bareCall "endfunction" []] ∧
    ∀ b ∈ blocks nestedBlocks, b.EndsAtOwnCloser nestedBlocks := by
  obtain ⟨hapart, hends⟩ := selfContained_readsApart .byValidationCall
  obtain ⟨hself, hcloser⟩ := hends nestedBlocks nestedBlocks_balanced
  exact ⟨nestedBlocks_balanced, by decide, hapart _ _ _ hself, hcloser⟩

end CMakeManual.Manual
