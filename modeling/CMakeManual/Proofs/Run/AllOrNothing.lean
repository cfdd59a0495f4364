import CMakeManual.Proofs.Run.Paths
import CMakeManual.Proofs.Run.Requests
import CMakeManual.Run.Program

/-! Runs are all or nothing. A run that fails prints nothing and changes nothing; one that writes
a document writes one file, from the source as it was before; every other run changes nothing. -/
namespace CMakeManual.Run
open Text Script Manual Document

theorem Failure.exitCode_ne_zero (failure : Failure) : failure.exitCode ≠ 0 := by
  cases failure <;> simp [exitCode]

theorem fromUTF8?_eq_some {content : ByteArray} {text : String} :
    String.fromUTF8? content = some text ↔ content = text.toUTF8 := by
  constructor
  · intro h
    unfold String.fromUTF8? at h
    split at h
    next hvalid =>
      obtain rfl := Option.some.inj h
      rfl
    next => simp at h
  · rintro rfl
    unfold String.fromUTF8?
    rw [String.toUTF8_eq_toByteArray, dif_pos text.isValidUTF8]
    rfl

theorem sourceText_eq_ok {path text : String} {content : ByteArray} :
    sourceText path content = .ok text ↔
      content = text.toUTF8 ∧ content.size ≤ sourceSizeLimit := by
  unfold sourceText
  by_cases hsize : sourceSizeLimit < content.size
  · rw [if_pos hsize]
    constructor
    · intro h
      cases h
    · rintro ⟨-, hsmall⟩
      omega
  · rw [if_neg hsize, ← fromUTF8?_eq_some]
    cases String.fromUTF8? content <;> simp [Nat.not_lt.mp hsize]

/-- A source file is read when its path leads to a file that holds text and is not too large. -/
theorem FileTree.source_eq_ok {tree : FileTree} {path text : String} :
    tree.source path = .ok text ↔
      tree.find path = .ok (.file text.toUTF8) ∧ text.toUTF8.size ≤ sourceSizeLimit := by
  unfold source
  cases tree.find path with
  | error fault => simp
  | ok entry =>
    cases entry with
    | directory => simp
    | file content =>
      simp only [sourceText_eq_ok, Except.ok.injEq, Entry.file.injEq]
      constructor
      · rintro ⟨rfl, hsize⟩
        exact ⟨rfl, hsize⟩
      · rintro ⟨rfl, hsize⟩
        exact ⟨rfl, hsize⟩

/-- The document that shows callables in the format asked for. -/
def Settings.rendering (settings : Settings) (found : List Callable) : String :=
  match settings.format with
  | .markdown => markdown settings.style (displayName settings.input) found
  | .json => json found

theorem Settings.document_eq (settings : Settings) (nodes : List Node) :
    settings.document nodes = settings.rendering (callables settings.requiredness nodes) := by
  cases h : settings.format <;> simp [document, rendering, h]

theorem documentReply_eq_ok {settings : Settings} {source : Except Failure String}
    {product : Product} :
    (documentReply settings source).result = .ok product ↔
      ∃ text found, source = .ok text ∧ callablesOf settings.requiredness text = .ok found ∧
        product = .written (settings.rendering found) := by
  unfold documentReply callablesOf
  cases source with
  | error failure => simp
  | ok text =>
    cases hread : readScript text with
    | error faults => simp [hread, Except.map]
    | ok nodes => simp [hread, Except.map, Settings.document_eq, eq_comm]

theorem listingReply_ne_written {α : Type} {path : String} {source : Except Failure String}
    {read : String → Except (List Fault) α} {listing : α → String} (written : String) :
    (listingReply path source read listing).result ≠ .ok (.written written) := by
  intro h
  obtain ⟨text, -, htext⟩ := bind_eq_ok.mp h
  split at htext <;> simp at htext

theorem Settings.reply_ne_written {settings : Settings} (h : settings.mode ≠ .document)
    (source : Except Failure String) (written : String) :
    (settings.reply source).result ≠ .ok (.written written) := by
  unfold Settings.reply
  split
  next hmode => exact absurd hmode h
  next => exact listingReply_ne_written written
  next => exact listingReply_ne_written written
  next => simp

/-- What carrying out a reply comes to: it fails and nothing happens, or it prints, or it writes
one file. -/
theorem Reply.carryOut_cases (reply : Reply) (settings : Settings) (threshold : Option LogLevel)
    (tree : FileTree) {out : Outcome} (hout : reply.carryOut settings threshold tree = out) :
    (out.exitCode ≠ 0 ∧ out.printed = "" ∧ out.files = tree) ∨
    (out.exitCode = 0 ∧ out.files = tree ∧ ∃ text, reply.result = .ok (.printed text)) ∨
    (out.exitCode = 0 ∧ ∃ text place, reply.result = .ok (.written text) ∧
      tree.target settings.output = .ok place ∧
      out.files = tree.set place (.file text.toUTF8)) := by
  subst hout
  unfold carryOut
  dsimp only
  split
  next failure _ => exact .inl ⟨failure.exitCode_ne_zero, rfl, rfl⟩
  next text hresult => exact .inr (.inl ⟨rfl, rfl, text, hresult⟩)
  next text hresult =>
    split
    next fault _ =>
      exact .inl ⟨(Failure.cannotWrite settings.output fault).exitCode_ne_zero, rfl, rfl⟩
    next files hwrite =>
      obtain ⟨place, hplace, rfl⟩ := FileTree.write_eq_ok.mp hwrite
      exact .inr (.inr ⟨rfl, text, place, hresult, hplace, rfl⟩)

theorem Reply.carryOut_written {reply : Reply} {settings : Settings} {tree : FileTree}
    {text : String} {place : Place} (hresult : reply.result = .ok (.written text))
    (hplace : tree.target settings.output = .ok place) (threshold : Option LogLevel) :
    (reply.carryOut settings threshold tree).exitCode = 0 := by
  have hwrite : tree.write settings.output text = .ok (tree.set place (.file text.toUTF8)) :=
    FileTree.write_eq_ok.mpr ⟨place, hplace, rfl⟩
  unfold carryOut
  simp only [hresult, hwrite, Outcome.success]

/-- A word that asks for something else than a document: help, the version, the commands, or a
listing, with the file in the same word or in the next. -/
def ReplacesDocument (word : String) : Prop :=
  word ∈ ["--lex", "--parse", "--list-commands", "--help", "--version"] ∨
    ∃ rest, word = "--lex=" ++ rest ∨ word = "--parse=" ++ rest ∨
      word = "-h" ++ rest ∨ word = "-V" ++ rest

theorem ReplacesDocument.named {word : String} (h : ReplacesDocument word) :
    ∃ option, (Word.ofString word).named? = some option ∧ option.replacesDocument = true := by
  rcases h with hmem | ⟨rest, rfl | rfl | rfl | rfl⟩
  · simp only [List.mem_cons, List.not_mem_nil, or_false] at hmem
    rcases hmem with rfl | rfl | rfl | rfl | rfl
    · exact ⟨.slot .tokenFile, rfl, rfl⟩
    · exact ⟨.slot .nodeFile, rfl, rfl⟩
    · exact ⟨.switch .listCommands, rfl, rfl⟩
    · exact ⟨.help, rfl, rfl⟩
    · exact ⟨.version, rfl, rfl⟩
  · exact ⟨.slot .tokenFile, by simp [Word.ofString, Word.named?, Named.ofLong?], rfl⟩
  · exact ⟨.slot .nodeFile, by simp [Word.ofString, Word.named?, Named.ofLong?], rfl⟩
  · exact ⟨.help, by simp [Word.ofString, Word.named?, Named.ofShort?], rfl⟩
  · exact ⟨.version, by simp [Word.ofString, Word.named?, Named.ofShort?], rfl⟩

/-- The long names of the options that ask for something else. The last three take no value. -/
theorem Named.name_of_replacesDocument {name : String} {option : Named}
    (h : ofLong? name = some option) (hoption : option.replacesDocument = true) :
    (name = "lex" ∨ name = "parse") ∨
      (name = "list-commands" ∨ name = "help" ∨ name = "version") ∧
        ∀ value, option.Takes value → value = none := by
  unfold ofLong? at h
  split at h <;> cases h
  case h_4.refl | h_5.refl => exact .inl (by simp)
  case h_8.refl | h_9.refl | h_10.refl => exact .inr ⟨by simp, fun _ htakes => htakes⟩
  all_goals exact absurd hoption (by decide)

theorem Named.letter_of_replacesDocument {letter : Char} {option : Named}
    (h : ofShort? letter = some option) (hoption : option.replacesDocument = true) :
    letter = 'h' ∨ letter = 'V' := by
  unfold ofShort? at h
  split at h <;> cases h
  case h_3.refl => exact .inl rfl
  case h_4.refl => exact .inr rfl
  all_goals exact absurd hoption (by decide)

/-- A word that asks for such an option is one of the words for them. -/
theorem replacesDocument_of_asksFor {word : String} {option : Named}
    (h : (Word.ofString word).AsksFor option) (hoption : option.replacesDocument = true) :
    ReplacesDocument word := by
  cases hw : Word.ofString word with
  | terminator | plain => simp [hw, Word.AsksFor] at h
  | long name value =>
    rw [hw] at h
    obtain ⟨hname, htakes⟩ := h
    rcases Named.name_of_replacesDocument hname hoption with hslot | ⟨hplain, hnone⟩
    · rcases Word.eq_of_long hw with ⟨-, rfl⟩ | ⟨v, -, rfl⟩ <;> rcases hslot with rfl | rfl
      · exact .inl (by decide)
      · exact .inl (by decide)
      · exact .inr ⟨v, .inl rfl⟩
      · exact .inr ⟨v, .inr (.inl rfl)⟩
    · obtain rfl := hnone value htakes
      rcases Word.eq_of_long hw with ⟨-, rfl⟩ | ⟨v, hsome, -⟩
      · rcases hplain with rfl | rfl | rfl <;> exact .inl (by decide)
      · cases hsome
  | short letters =>
    have hspelled := Word.eq_of_short hw
    rw [hw] at h
    cases letters with
    | nil => exact absurd h id
    | cons letter letters =>
      rw [hspelled]
      rcases Named.letter_of_replacesDocument h hoption with rfl | rfl
      · exact .inr ⟨String.ofList letters, .inr (.inr (.inl (String.toList_inj.mp (by simp))))⟩
      · exact .inr ⟨String.ofList letters, .inr (.inr (.inr (String.toList_inj.mp (by simp))))⟩

/-- The tree has a source to document: the input leads to a file that holds this text, is not too
large, and has these callables. -/
structure FileTree.Documents (tree : FileTree) (settings : Settings) (text : String)
    (found : List Callable) : Prop where
  held : tree.find settings.input = .ok (.file text.toUTF8)
  small : text.toUTF8.size ≤ sourceSizeLimit
  analysed : callablesOf settings.requiredness text = .ok found

/-- What a run on these words may leave of the tree it found. -/
structure AllOrNothing (words : List String) (tree : FileTree) (out : Outcome) : Prop where
  /-- A run that fails prints nothing and leaves every file as it was. -/
  failed : out.exitCode ≠ 0 → out.printed = "" ∧ out.files = tree
  /-- A run for a document comes to its end exactly when it can read the one file and write the
  other. -/
  succeeds : ∀ settings, readArguments words = .ok settings → settings.mode = .document →
    (out.exitCode = 0 ↔ (∃ text found, tree.Documents settings text found) ∧
      ∃ place, tree.target settings.output = .ok place)
  /-- It then has written the file at the output path and no other. The document shows the input
  as it was before, whether or not that is the file written. -/
  documented : ∀ settings, readArguments words = .ok settings → settings.mode = .document →
    out.exitCode = 0 → ∃ text found, tree.Documents settings text found ∧
      tree.WrittenTo out.files settings.output (settings.rendering found).toUTF8
  /-- A run that is asked for something else changes no file, whatever comes of it. -/
  listed : (∃ word ∈ words.takeWhile (· ≠ "--"), ReplacesDocument word) → out.files = tree
  /-- A run that is asked for nothing else has written its document, unless it failed. -/
  unasked : (∀ word ∈ words.takeWhile (· ≠ "--"), ¬ ReplacesDocument word) → out.exitCode = 0 →
    ∃ settings, readArguments words = .ok settings ∧ settings.mode = .document ∧
      ∃ text found, tree.Documents settings text found ∧
        tree.WrittenTo out.files settings.output (settings.rendering found).toUTF8

section
variable {words : List String} {settings : Settings} {threshold : Option LogLevel}
  {tree : FileTree}

theorem run_of_ok (h : readArguments words = .ok settings) :
    run words threshold tree =
      (settings.reply ((settings.sourceFile?.map tree.source).getD (.ok ""))).carryOut
        settings threshold tree := by
  unfold run
  rw [h]

/-- The reply for a document is one to write exactly when there is a source to document. -/
theorem reply_written (hmode : settings.mode = .document) {written : String} :
    (settings.reply ((settings.sourceFile?.map tree.source).getD (.ok ""))).result =
        .ok (.written written) ↔
      ∃ text found, tree.Documents settings text found ∧ written = settings.rendering found := by
  unfold Settings.reply Settings.sourceFile?
  simp only [hmode, Option.map_some, Option.getD_some, documentReply_eq_ok, FileTree.source_eq_ok,
    Product.written.injEq]
  constructor
  · rintro ⟨text, found, ⟨hheld, hsmall⟩, hanalysed, rfl⟩
    exact ⟨text, found, ⟨hheld, hsmall, hanalysed⟩, rfl⟩
  · rintro ⟨text, found, ⟨hheld, hsmall, hanalysed⟩, rfl⟩
    exact ⟨text, found, ⟨hheld, hsmall⟩, hanalysed, rfl⟩

theorem reply_ne_printed (hmode : settings.mode = .document) {source : Except Failure String}
    (text : String) : (settings.reply source).result ≠ .ok (.printed text) := by
  unfold Settings.reply
  simp [hmode, documentReply_eq_ok]

theorem run_document (h : readArguments words = .ok settings) (hmode : settings.mode = .document)
    (hexit : (run words threshold tree).exitCode = 0) :
    ∃ text found, tree.Documents settings text found ∧
      tree.WrittenTo (run words threshold tree).files settings.output
        (settings.rendering found).toUTF8 := by
  rcases Reply.carryOut_cases _ settings threshold tree (run_of_ok h).symm with
    ⟨hfailed, -⟩ | ⟨-, -, text, hprinted⟩ | ⟨-, written, place, hwritten, hplace, hfiles⟩
  · exact absurd hexit hfailed
  · exact absurd hprinted (reply_ne_printed hmode text)
  · obtain ⟨text, found, hdocuments, rfl⟩ := (reply_written hmode).mp hwritten
    refine ⟨text, found, hdocuments, ?_⟩
    rw [hfiles]
    exact FileTree.set_writtenTo hplace _

theorem run_failed (hexit : (run words threshold tree).exitCode ≠ 0) :
    (run words threshold tree).printed = "" ∧ (run words threshold tree).files = tree := by
  cases h : readArguments words with
  | error halt =>
    unfold run at hexit ⊢
    rw [h] at hexit ⊢
    cases halt with
    | rejected reason => exact ⟨rfl, rfl⟩
    | help => exact absurd rfl hexit
    | version => exact absurd rfl hexit
  | ok settings =>
    rcases Reply.carryOut_cases _ settings threshold tree (run_of_ok h).symm with
      ⟨-, hnothing⟩ | ⟨hzero, -⟩ | ⟨hzero, -⟩
    · exact hnothing
    · exact absurd hzero hexit
    · exact absurd hzero hexit

/-- A run without a word for something else writes its document if it comes to its end. -/
theorem run_unasked (h : ∀ word ∈ words.takeWhile (· ≠ "--"), ¬ ReplacesDocument word)
    (hexit : (run words threshold tree).exitCode = 0) :
    ∃ settings, readArguments words = .ok settings ∧ settings.mode = .document ∧
      ∃ text found, tree.Documents settings text found ∧
        tree.WrittenTo (run words threshold tree).files settings.output
          (settings.rendering found).toUTF8 := by
  have hasked : ∀ word ∈ words.takeWhile (· ≠ "--"), ∀ option,
      (Word.ofString word).AsksFor option → option.replacesDocument = false := by
    intro word hword option hoption
    cases hother : option.replacesDocument with
    | false => rfl
    | true => exact absurd (replacesDocument_of_asksFor hoption hother) (h word hword)
  rcases readArguments_document hasked with ⟨reason, hrejected⟩ | ⟨settings, hread, hmode⟩
  · unfold run at hexit
    rw [hrejected] at hexit
    cases hexit
  · exact ⟨settings, hread, hmode, run_document hread hmode hexit⟩

/-- A run that is not for a document changes nothing. -/
theorem run_files (h : ∀ settings, readArguments words = .ok settings → settings.mode ≠ .document) :
    (run words threshold tree).files = tree := by
  cases hread : readArguments words with
  | error halt =>
    unfold run
    rw [hread]
    cases halt <;> rfl
  | ok settings =>
    rcases Reply.carryOut_cases _ settings threshold tree (run_of_ok hread).symm with
      ⟨-, -, hfiles⟩ | ⟨-, hfiles, -⟩ | ⟨-, written, place, hwritten, -⟩
    · exact hfiles
    · exact hfiles
    · exact absurd hwritten (Settings.reply_ne_written (h settings hread) _ written)

end

/-- Every run is all or nothing, for every command line and every tree of files. -/
theorem run_allOrNothing (words : List String) (threshold : Option LogLevel) (tree : FileTree) :
    AllOrNothing words tree (run words threshold tree) where
  failed := run_failed
  succeeds := by
    intro settings h hmode
    constructor
    · intro hexit
      obtain ⟨text, found, hdocuments, hwritten⟩ := run_document h hmode hexit
      obtain ⟨place, hplace, -⟩ := hwritten.elsewhere
      exact ⟨⟨text, found, hdocuments⟩, place, hplace⟩
    · rintro ⟨⟨text, found, hdocuments⟩, place, hplace⟩
      rw [run_of_ok h]
      exact Reply.carryOut_written ((reply_written hmode).mpr ⟨text, found, hdocuments, rfl⟩)
        hplace threshold
  documented := fun _ h hmode => run_document h hmode
  listed := by
    rintro ⟨word, hword, hreplaces⟩
    apply run_files
    intro settings h
    obtain ⟨option, hoption, hother⟩ := hreplaces.named
    exact readArguments_mode h hword hoption hother
  unasked := run_unasked

/-- The input may be the file written: it ends up as the document of what it was. -/
example :
    let tree := FileTree.ofList [("a.cmake", .file "function(f)\nendfunction()\n".toUTF8)]
    let out := run ["a.cmake", "-o", "a.cmake", "--format=json"] none tree
    out.exitCode = 0 ∧ out.files.content? ["a.cmake"] =
      some (json [⟨.functionBlock, "f", [], "", 1, []⟩]).toUTF8 := by
  constructor <;> with_unfolding_all rfl

end CMakeManual.Run
