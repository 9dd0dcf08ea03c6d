import EndlessRemix.Files
import EndlessRemix.Proofs.Except

/-!
# Paths and what they lead to

A path that is a single name leads to what the working directory has under that name: a file there
is read, and a file can be written there unless it is a directory. A file that was written at a
path, whatever its steps are, is then read from the same path.
-/

namespace EndlessRemix

/-! ## Steps of a path -/

/-- From a place on after which there is no slash, nothing more is split off. -/
lemma splitOnAux_of_not_mem {before rest : List Char} (h : '/' ∉ rest) :
    (String.ofList (before ++ rest)).splitOnAux "/" 0 ⟨String.utf8Len before⟩ 0 []
      = [String.ofList (before ++ rest)] := by
  induction rest generalizing before with
  | nil =>
    have hall := String.extract_of_valid [] before []
    rw [String.splitOnAux, if_pos ((String.atEnd_of_valid before []).mpr rfl)]
    simp only [List.nil_append, List.append_nil, String.utf8Len_nil, Nat.zero_add] at hall ⊢
    exact congrArg (fun step => [step]) hall
  | cons c rest ih =>
    have hend : ¬String.Pos.Raw.atEnd (String.ofList (before ++ c :: rest))
        ⟨String.utf8Len before⟩ = true :=
      mt (String.atEnd_of_valid before (c :: rest)).mp (List.cons_ne_nil _ _)
    have hslash : String.Pos.Raw.get "/" 0 = '/' := rfl
    have hdifferent : ¬(c == '/') = true := by
      rw [beq_iff_eq]
      rintro rfl
      exact h (List.mem_cons_self ..)
    have hnext : String.Pos.Raw.next (String.ofList (before ++ c :: rest)) ⟨String.utf8Len before⟩
        = ⟨String.utf8Len (before ++ [c])⟩ := by
      rw [String.next_of_valid, String.utf8Len_append, String.utf8Len_cons, String.utf8Len_nil,
        Nat.zero_add]
    have hlater := @ih (before ++ [c]) fun hmem => h (List.mem_cons_of_mem _ hmem)
    rw [List.append_assoc, List.singleton_append] at hlater
    rw [String.splitOnAux, if_neg hend, String.get_of_valid, List.headD_cons, hslash,
      if_neg hdifferent]
    show String.splitOnAux _ _ _ (String.Pos.Raw.next _ ⟨String.utf8Len before - 0⟩) _ _ = _
    rw [Nat.sub_zero, hnext, hlater]

/-- A path without a slash is a single step. -/
lemma splitPath_of_not_mem {path : String} (h : '/' ∉ path.toList) :
    FileTree.splitPath path = ([], path) := by
  have hsplit := @splitOnAux_of_not_mem [] path.toList h
  rw [List.nil_append, String.ofList_toList] at hsplit
  have hsteps : path.splitOn "/" = [path] := hsplit
  rw [FileTree.splitPath, hsteps]
  rfl

/-! ## Names -/

/-- A path that is a name, and neither too long nor one of those that lead to a directory. -/
structure IsName (path : String) : Prop where
  check : FileTree.checkPath path = .ok ()
  no_slash : '/' ∉ path.toList
  relative : path.startsWith "/" = false
  not_directory : FileTree.isDirectoryStep path = false
  short : path.utf8ByteSize ≤ FileTree.longestName

namespace IsName

variable {name : String} {tree : FileTree} {working : Place}

lemma find_eq (h : IsName name) : tree.find working name = .ok (tree.node? (working ++ [name])) :=
  if_neg (not_lt.mpr h.short)

lemma origin_eq (h : IsName name) (working : Place) : FileTree.origin working name = working := by
  rw [FileTree.origin, h.relative]
  rfl

/-- By its name, a file is read that is there. -/
lemma read_eq (h : IsName name) : tree.read working name
    = match tree.node? (working ++ [name]) with
      | none => .error .missing
      | some .directory => .error .isDirectory
      | some (.file bytes) => .ok bytes := by
  have hstep : ¬FileTree.isDirectoryStep name = true := by simp [h.not_directory]
  rw [FileTree.read, h.check, splitPath_of_not_mem h.no_slash]
  simp only [ok_bind, if_neg hstep, h.origin_eq, FileTree.enter]
  show (tree.find working name >>= _) = _
  rw [h.find_eq, ok_bind]
  cases tree.node? (working ++ [name]) with
  | none => rfl
  | some node => cases node <;> rfl

/-- A name has no slashes at its end to be cut off. -/
lemma trimmed_eq (h : IsName name) :
    String.ofList (name.toList.reverse.dropWhile (· = '/')).reverse = name := by
  have hkept : name.toList.reverse.dropWhile (· = '/') = name.toList.reverse := by
    rw [List.dropWhile_eq_self_iff]
    intro hlength
    simp only [decide_eq_true_eq]
    intro hslash
    exact h.no_slash (List.mem_reverse.mp (hslash ▸ List.getElem_mem hlength))
  rw [hkept, List.reverse_reverse, String.ofList_toList]

/-- A file is written under its name, unless that is a directory. -/
lemma placeToWrite_eq (h : IsName name) (hnode : tree.node? (working ++ [name]) ≠ some .directory) :
    tree.placeToWrite working name = .ok (working ++ [name]) := by
  have hstep : ¬(name ≠ name ∨ FileTree.isDirectoryStep name = true) := by simp [h.not_directory]
  rw [FileTree.placeToWrite, h.check, h.trimmed_eq]
  simp only [splitPath_of_not_mem h.no_slash, ok_bind, if_neg hstep, h.origin_eq, FileTree.enter]
  show (tree.find working name >>= _) = _
  rw [h.find_eq, ok_bind]
  cases hfound : tree.node? (working ++ [name]) with
  | none => rfl
  | some node =>
    cases node with
    | file bytes => rfl
    | directory => exact absurd hfound hnode

end IsName

/-! ## Written files -/

namespace FileTree

variable {tree : FileTree} {place : Place} {bytes : Array UInt8}

lemma node?_write_self : (tree.write place bytes).node? place = some (.file bytes) := by
  rw [node?, write, List.lookup_cons_self]

/-- The rest of the entries is looked up as before. -/
lemma lookup_write {here : Place} (h : here ≠ place) :
    (tree.write place bytes).entries.lookup here = tree.entries.lookup here := by
  rw [write, List.lookup_cons, beq_eq_false_iff_ne.mpr h]
  dsimp only
  induction tree.entries with
  | nil => rfl
  | cons entry rest ih =>
    by_cases hentry : entry.1 = place
    · rw [List.filter_cons_of_neg (by simpa using hentry), ih, List.lookup_cons,
        beq_eq_false_iff_ne.mpr (hentry ▸ h)]
    · rw [List.filter_cons_of_pos (by simpa using hentry), List.lookup_cons, List.lookup_cons, ih]

/-- A directory stays one, when a file is written at a place that is none. -/
lemma node?_write_directory {here : Place} (hplace : tree.node? place ≠ some .directory)
    (h : tree.node? here = some .directory) :
    (tree.write place bytes).node? here = some .directory := by
  have hne : here ≠ place := by
    rintro rfl
    exact hplace h
  rw [node?] at h ⊢
  rw [lookup_write hne]
  cases hlookup : tree.entries.lookup here with
  | some node =>
    rw [hlookup] at h
    exact h
  | none =>
    rw [hlookup] at h
    dsimp only at h ⊢
    have hinside := ((ite_eq_iff.mp h).resolve_right fun hnone => nomatch hnone.2).1
    refine if_pos ?_
    rcases Bool.or_eq_true_iff.mp hinside with hempty | hany
    · rw [hempty, Bool.true_or]
    · -- what the directory is for may be the place that is written
      obtain ⟨entry, hentry, hbelow⟩ := List.any_eq_true.mp hany
      refine Bool.or_eq_true_iff.mpr (.inr (List.any_eq_true.mpr ?_))
      by_cases hwritten : entry.1 = place
      · exact ⟨(place, .file bytes), List.mem_cons_self, hwritten ▸ hbelow⟩
      · exact ⟨entry, List.mem_cons_of_mem _ (List.mem_filter.mpr ⟨hentry, by simpa⟩), hbelow⟩

lemma find_write {here : Place} {name : String} (hplace : tree.node? place ≠ some .directory)
    (h : tree.find here name = .ok (some .directory)) :
    (tree.write place bytes).find here name = .ok (some .directory) := by
  rw [find] at h ⊢
  split_ifs at h ⊢ with hlong
  exact congrArg Except.ok (node?_write_directory hplace (Except.ok.inj h))

/-- What was entered before a file was written can be entered after it. -/
lemma enter_write {here parent : Place} {steps : List String}
    (hplace : tree.node? place ≠ some .directory) (h : tree.enter here steps = .ok parent) :
    (tree.write place bytes).enter here steps = .ok parent := by
  induction steps generalizing here with
  | nil => exact h
  | cons step steps ih =>
    rw [enter] at h ⊢
    split_ifs at h ⊢ with hstay hup
    · exact ih h
    · exact ih h
    · obtain ⟨node, hfind, h⟩ := bind_eq_ok.mp h
      match node with
      | some .directory =>
        rw [find_write hplace hfind]
        exact ih h
      | some (.file _) => cases h
      | none => cases h

/-- A place to write is what a name in a directory leads to, and no directory itself. -/
lemma of_placeToWrite {working : Place} {path : String}
    (h : tree.placeToWrite working path = .ok place) :
    ∃ parent, checkPath path = .ok ()
      ∧ tree.enter (origin working path) (splitPath path).1 = .ok parent
      ∧ ¬isDirectoryStep (splitPath path).2 = true
      ∧ ¬longestName < (splitPath path).2.utf8ByteSize
      ∧ place = parent ++ [(splitPath path).2] ∧ tree.node? place ≠ some .directory := by
  rw [placeToWrite] at h
  obtain ⟨⟨⟩, hcheck, h⟩ := bind_eq_ok.mp h
  dsimp only at h
  obtain ⟨parent, hparent, h⟩ := bind_eq_ok.mp h
  split_ifs at h with hdirectory
  · cases h
  -- the path has no slash at its end, and its last step is a name
  obtain ⟨htrimmed, hlast⟩ := not_or.mp hdirectory
  rw [not_not] at htrimmed
  rw [htrimmed] at hparent hlast h
  obtain ⟨node, hfind, h⟩ := bind_eq_ok.mp h
  have hshort : ¬longestName < (splitPath path).2.utf8ByteSize := by
    intro hlong
    rw [find, if_pos hlong] at hfind
    cases hfind
  rw [find, if_neg hshort] at hfind
  obtain rfl := Except.ok.inj hfind
  cases hnode : tree.node? (parent ++ [(splitPath path).2]) with
  | none =>
    rw [hnode] at h
    obtain rfl := Except.ok.inj h
    exact ⟨parent, hcheck, hparent, hlast, hshort, rfl, by simp [hnode]⟩
  | some node =>
    rw [hnode] at h
    cases node with
    | directory => cases h
    | file _ =>
      obtain rfl := Except.ok.inj h
      exact ⟨parent, hcheck, hparent, hlast, hshort, rfl, by simp [hnode]⟩

/-- A file that is written at a path is read from it. -/
theorem read_write {working : Place} {path : String}
    (h : tree.placeToWrite working path = .ok place) (bytes : Array UInt8) :
    (tree.write place bytes).read working path = .ok bytes := by
  obtain ⟨parent, hcheck, hparent, hlast, hshort, rfl, hplace⟩ := of_placeToWrite h
  have hwritten : (tree.write (parent ++ [(splitPath path).2]) bytes).find parent (splitPath path).2
      = .ok (some (.file bytes)) := by
    rw [find, if_neg hshort, node?_write_self]
  rw [read, hcheck, ok_bind]
  dsimp only
  rw [if_neg hlast, enter_write hplace hparent, ok_bind, hwritten, ok_bind]
  rfl

end FileTree

end EndlessRemix
