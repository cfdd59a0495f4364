import CMakeManual.Proofs.Text.Parts
import CMakeManual.Run.FileTree

/-! What a write does to a tree. It puts one file where its path leads, the path leads there
afterwards, and every other place keeps its entry. -/
namespace CMakeManual.Run
open Text

theorem slash_not_mem_components {path name : String} (h : name ∈ components path) :
    '/' ∉ name.toList := by
  obtain ⟨piece, hpiece, rfl⟩ := List.mem_map.mp h
  rw [String.toList_ofList]
  exact not_mem_of_mem_pieces hpiece

theorem mem_components_of_pathStart {path name : String} (h : name ∈ (pathStart path).2) :
    name ∈ components path := by
  unfold pathStart at h
  split at h
  next names hc => exact hc ▸ List.mem_cons_of_mem "" h
  next => exact h

/-- A name below a directory is neither the root nor a directory above the working directory. -/
theorem isFrame_append {name : String} (hslash : '/' ∉ name.toList) (hup : name ≠ "..")
    (parent : Place) : isFrame (parent ++ [name]) = false := by
  have hroot : parent ++ [name] ≠ ["/"] := by
    intro h
    obtain rfl : name = "/" := by simpa using congrArg List.getLast? h
    exact absurd hslash (by decide)
  simp [isFrame, hroot, hup]

/-- Where one component leads from a directory. -/
def FileTree.enter? (tree : FileTree) (place : Place) (name : String) : Option Place :=
  if name = "" ∨ name = "." then some place
  else if name = ".." then some (parentOf place)
  else if (tree.get? (place ++ [name])).isSome then some (place ++ [name])
  else none

section Following
variable {tree : FileTree} {place last : Place} {names : List String}

theorem FileTree.follow_cons_eq_ok {name : String} :
    tree.follow place (name :: names) = .ok last ↔
      tree.get? place = some .directory ∧
        ∃ next, tree.enter? place name = some next ∧ tree.follow next names = .ok last := by
  rw [follow]
  cases tree.get? place with
  | none => simp
  | some entry =>
    cases entry with
    | file content => simp
    | directory =>
      unfold enter?
      by_cases hstay : name = "" ∨ name = "."
      · simp [hstay]
      · by_cases hup : name = ".."
        · simp [hup]
        · by_cases hsome : (tree.get? (place ++ [name])).isSome = true <;> simp [hstay, hup, hsome]

theorem FileTree.follow_append_eq_ok {others : List String} :
    tree.follow place (names ++ others) = .ok last ↔
      ∃ mid, tree.follow place names = .ok mid ∧ tree.follow mid others = .ok last := by
  induction names generalizing place with
  | nil => simp [follow]
  | cons name names ih =>
    rw [List.cons_append, follow_cons_eq_ok]
    simp only [follow_cons_eq_ok, ih]
    constructor
    · rintro ⟨hdir, next, hnext, mid, hmid, hlast⟩
      exact ⟨mid, ⟨hdir, next, hnext, hmid⟩, hlast⟩
    · rintro ⟨mid, ⟨hdir, next, hnext, hmid⟩, hlast⟩
      exact ⟨hdir, next, hnext, mid, hmid, hlast⟩

/-- An empty component stays at a directory, and leads from nowhere else. -/
theorem FileTree.follow_empty_eq_ok :
    tree.follow place [""] = .ok last ↔ tree.get? place = some .directory ∧ last = place := by
  have hstay : tree.enter? place "" = some place := by simp [enter?]
  rw [follow_cons_eq_ok, hstay]
  constructor
  · rintro ⟨hdir, next, hnext, hlast⟩
    obtain rfl := Option.some.inj hnext
    exact ⟨hdir, (Except.ok.inj hlast).symm⟩
  · rintro ⟨hdir, rfl⟩
    exact ⟨hdir, last, rfl, rfl⟩

/-- What leads to a directory leads from one. -/
theorem FileTree.directory_of_follow (h : tree.follow place names = .ok last)
    (hlast : tree.get? last = some .directory) : tree.get? place = some .directory := by
  cases names with
  | nil =>
    obtain rfl : place = last := by simpa [follow] using h
    exact hlast
  | cons name names => exact (follow_cons_eq_ok.mp h).1

end Following

theorem FileTree.enter?_set {tree : FileTree} {place target next : Place} {name : String}
    (h : tree.enter? place name = some next) (hne : next ≠ target) (entry : Entry) :
    (tree.set target entry).enter? place name = some next := by
  unfold enter? at h ⊢
  split at h
  next hstay => rwa [if_pos hstay]
  next hstay =>
    rw [if_neg hstay]
    split at h
    next hup => rwa [if_pos hup]
    next hup =>
      rw [if_neg hup]
      split at h
      next hsome =>
        obtain rfl := Option.some.inj h
        rw [get?_set_of_ne tree entry hne, if_pos hsome]
      next => simp at h

/-- A place that holds no directory is none on the way to one, so the way stays the same when an
entry is put there. -/
theorem FileTree.follow_set {tree : FileTree} {target : Place}
    (hfree : tree.get? target ≠ some .directory) (entry : Entry) {place last : Place}
    {names : List String} (h : tree.follow place names = .ok last)
    (hlast : tree.get? last = some .directory) :
    (tree.set target entry).follow place names = .ok last := by
  have hdirectory {p : Place} (hp : tree.get? p = some .directory) : p ≠ target := by
    rintro rfl
    exact hfree hp
  induction names generalizing place with
  | nil => exact h
  | cons name names ih =>
    obtain ⟨hdir, next, hnext, hrest⟩ := follow_cons_eq_ok.mp h
    have hkept := hdirectory (directory_of_follow hrest hlast)
    refine follow_cons_eq_ok.mpr ⟨?_, next, enter?_set hnext hkept entry, ih hrest⟩
    rw [get?_set_of_ne tree entry (hdirectory hdir), hdir]

/-- Where a write to a path goes: to a name below a directory, at which no directory stands. -/
theorem FileTree.target_eq_ok {tree : FileTree} {path : String} {place : Place}
    (h : tree.target path = .ok place) :
    ∃ front name parent, (pathStart path).2 = front ++ [name] ∧ place = parent ++ [name] ∧
      (name ≠ "" ∧ name ≠ "." ∧ name ≠ "..") ∧
      tree.follow (pathStart path).1 front = .ok parent ∧ tree.get? parent = some .directory ∧
      tree.get? place ≠ some .directory := by
  unfold FileTree.target at h
  dsimp only at h
  split at h
  next => simp at h
  next name hname =>
    split at h
    next => simp at h
    next parent hparent =>
      split at h
      next => simp at h
      next hplain =>
        split at h
        next => simp at h
        next hfree =>
          obtain rfl := Except.ok.inj h
          obtain ⟨front, hfront⟩ := List.getLast?_eq_some_iff.mp hname
          simp only [Bool.or_eq_true, beq_iff_eq, decide_eq_true_eq, not_or, Nat.not_lt] at hplain
          obtain ⟨⟨hdot, hup⟩, hlength⟩ := hplain
          -- The path does not end in a slash, so nothing was dropped from its end.
          have hwhole :=
            (dropEndWhile_isPrefix (· == "") (pathStart path).2).eq_of_length_le hlength
          rw [hfront, List.dropLast_concat, follow_append_eq_ok] at hparent
          obtain ⟨mid, hmid, hlast⟩ := hparent
          obtain ⟨hdir, rfl⟩ := follow_empty_eq_ok.mp hlast
          refine ⟨front, name, parent, hwhole.symm.trans hfront, rfl, ⟨?_, hdot, hup⟩, hmid, hdir,
            ?_⟩
          · simpa using of_mem_getLast?_dropEndWhile hname
          · intro hd
            simp [hd, Entry.isDirectory] at hfree

/-- `after` is `before` with one file written: the path leads to a file with this content, which
stands where a write to the path goes, and every other place keeps its entry. -/
structure FileTree.WrittenTo (before after : FileTree) (path : String) (content : ByteArray) :
    Prop where
  found : after.find path = .ok (.file content)
  elsewhere : ∃ place, before.target path = .ok place ∧
    after.get? place = some (.file content) ∧
    ∀ other, other ≠ place → after.get? other = before.get? other

theorem FileTree.set_writtenTo {tree : FileTree} {path : String} {place : Place}
    (h : tree.target path = .ok place) (content : ByteArray) :
    tree.WrittenTo (tree.set place (.file content)) path content := by
  obtain ⟨front, name, parent, hpath, rfl, ⟨hempty, hdot, hup⟩, hfollow, hdir, hfree⟩ :=
    target_eq_ok h
  have hname : name ∈ (pathStart path).2 := by simp [hpath]
  have hframe := isFrame_append
    (slash_not_mem_components (mem_components_of_pathStart hname)) hup parent
  have hself := get?_set_self tree (.file content) hframe
  have hparent : parent ≠ parent ++ [name] := by simp
  have hway : (tree.set (parent ++ [name]) (.file content)).follow (pathStart path).1
      (pathStart path).2 = .ok (parent ++ [name]) := by
    rw [hpath, follow_append_eq_ok]
    refine ⟨parent, follow_set hfree _ hfollow hdir, follow_cons_eq_ok.mpr ⟨?_, _, ?_, rfl⟩⟩
    · rw [get?_set_of_ne tree _ hparent, hdir]
    · simp [enter?, hempty, hdot, hup, hself]
  refine ⟨?_, parent ++ [name], h, hself, fun other hother => get?_set_of_ne tree _ hother⟩
  unfold find
  simp only [hway, hself]

theorem FileTree.write_eq_ok {tree files : FileTree} {path text : String} :
    tree.write path text = .ok files ↔
      ∃ place, tree.target path = .ok place ∧ files = tree.set place (.file text.toUTF8) := by
  unfold write
  cases tree.target path with
  | error fault => simp [Except.map]
  | ok place => simp [Except.map, eq_comm]

end CMakeManual.Run
