import CMakeManual.Proofs.Manual.Congruence
import CMakeManual.Proofs.Script.LineEnds

/-! Scripts with carriage returns have the same manual. Documentation is cut into lines, which drops
a carriage return at their ends, and everything else comes from commands, which are the same. -/
namespace CMakeManual.Manual
open Text Script Vocabulary

theorem proseLine_return (cs : List Char) : proseLine (cs ++ ['\r']) = proseLine cs := by
  rw [proseLine, trimEnd_return, proseLine]

theorem dropWhile_hash_return (cs : List Char) :
    (cs ++ ['\r']).dropWhile (· == '#') = cs.dropWhile (· == '#') ++ ['\r'] := by
  induction cs with
  | nil => rfl
  | cons c cs ih =>
    cases hc : c == '#' <;> simp [hc, ih]

/-- Brackets are taken off as they are written. -/
theorem insideBrackets_bracket (level : Nat) (body : List Char) :
    insideBrackets ('#' :: (bracketOpener level ++ (body ++ bracketCloser level))) = body := by
  have hend : (bracketCloser level).isSuffixOf (body ++ bracketCloser level) = true :=
    List.isSuffixOf_iff_suffix.mpr (List.suffix_append _ _)
  simp only [insideBrackets, bracketOpen?_opener, withoutEnd, hend, ↓reduceIte,
    List.length_append, Nat.add_sub_cancel, List.take_left]

theorem commentProse_alike {kind : CommentKind} {x y : String} {line : Nat}
    (h : CommentAlike kind x.toList y.toList) :
    commentProse ⟨kind, y, line⟩ = commentProse ⟨kind, x, line⟩ := by
  unfold commentProse
  generalize x.toList = cs, y.toList = ds at h
  cases h with
  | same => rfl
  | line => simp only [dropWhile_hash_return, proseLine_return]
  | bracket level h => simp only [insideBrackets_bracket, h.lines_eq]

/-- Another place of a command or other line ends in a comment make no difference. -/
theorem readAlike_of_alike {n m : Node} (h : n.Alike m) : ReadAlike n m := by
  cases h with
  | invocation c span =>
    exact ⟨fun _ _ => rfl, fun _ _ => rfl, .none, .some ⟨fun _ _ => rfl, fun _ _ => rfl⟩⟩
  | comment line h =>
    exact ⟨fun _ _ => rfl, fun _ _ => rfl, .some (commentProse_alike h), .none⟩
  | blankLine line => exact ⟨fun _ _ => rfl, fun _ _ => rfl, .none, .none⟩

theorem callables_alike {ns ms : List Node} (h : List.Forall₂ Node.Alike ns ms)
    (policy : Requiredness) : callables policy ms = callables policy ns :=
  callables_congr (h.imp fun _ _ hn => readAlike_of_alike hn) policy

/-- Both scripts have the same callables, or both have faults and these are reported alike. -/
inductive SameManual : Except (List Fault) (List Callable) → Except (List Fault) (List Callable) →
    Prop where
  | ok (ds : List Callable) : SameManual (.ok ds) (.ok ds)
  | error {fs gs : List Fault} (h : List.Forall₂ Fault.Alike fs gs) :
      SameManual (.error fs) (.error gs)

/-- A script without carriage returns and without arguments over several lines has the same manual
when it is written on Windows. -/
theorem onWindows_sameManual {source : String} {tokens : List Token}
    (hr : '\r' ∉ source.toList) (hm : source.toList.head? ≠ some byteOrderMark)
    (hs : scan source = .ok tokens) (ht : ∀ t ∈ tokens, t.kind.OnOneLine) (marked : Bool) :
    (∃ others, scan (onWindows marked source) = .ok others) ∧
    ∀ policy,
      SameManual (callablesOf policy source) (callablesOf policy (onWindows marked source)) := by
  obtain ⟨others, hs', halike⟩ := scan_onWindows hr hm hs ht marked
  refine ⟨⟨others, hs'⟩, ?_⟩
  intro policy
  rw [callablesOf, callablesOf, readScript_of_scan hs, readScript_of_scan hs']
  rcases parse_alike halike with ⟨ns, ms, hns, hms, hnodes⟩ | ⟨fs, gs, hfs, hgs, hfaults⟩
  · rw [hns, hms]
    simp only [Except.map, callables_alike hnodes]
    exact .ok _
  · rw [hfs, hgs]
    exact .error hfaults

/-- Documentation in both kinds of comment, over three lines. -/
def documentedScript : String := "#[[a\nb]]\n# c\nmacro(m)\n"

def documentedTokens : List Token :=
  [⟨.bracketComment "#[[a\nb]]", ⟨0, 8⟩, 1⟩, ⟨.newline, ⟨8, 9⟩, 2⟩,
    ⟨.lineComment "# c", ⟨9, 12⟩, 3⟩, ⟨.newline, ⟨12, 13⟩, 3⟩,
    ⟨.ident "macro", ⟨13, 18⟩, 4⟩, ⟨.leftParen, ⟨18, 19⟩, 4⟩, ⟨.unquoted "m", ⟨19, 20⟩, 4⟩,
    ⟨.rightParen, ⟨20, 21⟩, 4⟩, ⟨.newline, ⟨21, 22⟩, 4⟩, ⟨.endOfFile, ⟨22, 22⟩, 5⟩]

theorem onWindows_sameManual_documented :
    scan documentedScript = .ok documentedTokens ∧
    onWindows true documentedScript = "\ufeff#[[a\r\nb]]\r\n# c\r\nmacro(m)\r\n" ∧
    SameManual (callablesOf .never documentedScript)
      (callablesOf .never (onWindows true documentedScript)) ∧
    callablesOf .never documentedScript = .ok [⟨.macroBlock, "m", [], "a\nb\nc", 4, []⟩] := by
  have hs : scan documentedScript = .ok documentedTokens := by decide +kernel
  have ht : ∀ t ∈ documentedTokens, t.kind.OnOneLine := by
    simp [documentedTokens, TokenKind.OnOneLine]
  have hsame := onWindows_sameManual (by decide) (by decide) hs ht true
  exact ⟨hs, by decide +kernel, hsame.2 .never, by decide +kernel⟩

end CMakeManual.Manual
