import Pgfy.Storage.Client

/-! # What a listing says

    A listing is read object by object into folders. Here the result is
    described at once: which folders there are, and which state the entry of
    each has, from the files the listing has in it. The keys of an entry lead
    back to it through `entryFor`.
-/

namespace Pgfy

open Calendar

namespace Storage

/-! ### Folders and files -/

section
variable {root : Text} {objects : List Object} {o : Object} {name file : Text}

/-- The listing has the file in the folder, both named below `root`. -/
def HasFile (root : Text) (objects : List Object) (name file : Text) : Prop :=
  ∃ o ∈ objects, Text.split '/' (Text.trimPrefix root o.key) = [name, file]

/-- The listing has a file in the folder that is not the layout's. -/
def HasUnexpected (root : Text) (objects : List Object) (name : Text) : Prop :=
  ∃ file, file ≠ archiveFile ∧ file ≠ manifestFile ∧ HasFile root objects name file

/-- The files the listing has in the folder. -/
def listedFiles (root : Text) (objects : List Object) (name : Text) : Set Text :=
  { file | HasFile root objects name file }

theorem hasFile_snoc :
    HasFile root (objects ++ [o]) name file ↔ HasFile root objects name file ∨
      Text.split '/' (Text.trimPrefix root o.key) = [name, file] := by
  simp [HasFile, or_and_right, exists_or]

theorem listedFiles_note (ho : Text.split '/' (Text.trimPrefix root o.key) = [name, file]) :
    listedFiles root (objects ++ [o]) name = insert file (listedFiles root objects name) := by
  ext g
  simp [listedFiles, hasFile_snoc, ho, or_comm, eq_comm]

theorem listedFiles_skip
    (ho : ∀ file, Text.split '/' (Text.trimPrefix root o.key) ≠ [name, file]) :
    listedFiles root (objects ++ [o]) name = listedFiles root objects name := by
  ext g
  simp [listedFiles, hasFile_snoc, ho]

/-- Folder and file names have no slash. -/
theorem HasFile.slash (h : HasFile root objects name file) : '/' ∉ name ∧ '/' ∉ file := by
  obtain ⟨o, -, hsplit⟩ := h
  exact (Text.split_eq_pair.mp hsplit).2

/-- The folders found are those with a file. -/
theorem exists_found_iff : (∃ f ∈ objects.foldl (addObject root) [], f.name = name) ↔
    ∃ file, HasFile root objects name file := by
  induction objects using List.reverseRecOn with
  | nil => simp [HasFile]
  | append_singleton objects o ih =>
    simp only [hasFile_snoc, exists_or]
    rw [← ih, List.foldl_append, List.foldl_cons, List.foldl_nil, addObject]
    split
    · next n g hsplit =>
      have hname : ((Table.find Found.name n (objects.foldl (addObject root) [])).getD
          { name := n }).name = n := by
        cases hfind : Table.find Found.name n (objects.foldl (addObject root) []) with
        | none => rfl
        | some f => exact (Table.find_eq_some hfind).2
      simp only [Table.mem_upsert, hsplit]
      constructor
      · rintro ⟨f, rfl | ⟨hf, -⟩, rfl⟩
        · exact Or.inr ⟨g, by rw [Found.note_name, hname]⟩
        · exact Or.inl ⟨f, hf, rfl⟩
      · intro h
        by_cases hn : n = name
        · exact ⟨_, Or.inl rfl, by rw [Found.note_name, hname, hn]⟩
        · obtain ⟨f, hf, hfn⟩ := h.resolve_right (by simp [hn])
          exact ⟨f, Or.inr ⟨hf, hfn.trans_ne (Ne.symm hn)⟩, hfn⟩
    · next hsplit =>
      refine (or_iff_left ?_).symm
      rintro ⟨g, hg⟩
      exact hsplit name g hg

/-- What holds of a folder without files, and is kept by noting a file of the
    folder and by passing over any other object, holds of the folders found. -/
theorem foldl_addObject {P : List Object → Found → Prop}
    (hnew : ∀ objects name, listedFiles root objects name = ∅ → P objects { name := name })
    (hnote : ∀ objects o f file, P objects f →
      Text.split '/' (Text.trimPrefix root o.key) = [f.name, file] →
      P (objects ++ [o]) (f.note file o.size))
    (hskip : ∀ objects o f, P objects f →
      (∀ file, Text.split '/' (Text.trimPrefix root o.key) ≠ [f.name, file]) →
      P (objects ++ [o]) f) : ∀ f ∈ objects.foldl (addObject root) [], P objects f := by
  induction objects using List.reverseRecOn with
  | nil => simp
  | append_singleton objects o ih =>
    rw [List.foldl_append, List.foldl_cons, List.foldl_nil, addObject]
    split
    · next name file hsplit =>
      intro f hf
      rcases Table.mem_upsert.mp hf with rfl | ⟨hf, hne⟩
      · cases hfind : Table.find Found.name name (objects.foldl (addObject root) []) with
        | some f₀ =>
          obtain ⟨hmem, hname⟩ := Table.find_eq_some hfind
          exact hnote _ _ _ _ (ih f₀ hmem) (hname ▸ hsplit)
        | none =>
          refine hnote _ _ { name := name } _ (hnew _ _ ?_) hsplit
          refine Set.eq_empty_of_forall_notMem (fun g hg => ?_)
          obtain ⟨f, hf, hfn⟩ := exists_found_iff.mpr ⟨g, hg⟩
          exact Table.find_eq_none.mp hfind f hf hfn
      · refine hskip _ _ _ (ih f hf) (fun g heq => hne ?_)
        rw [hsplit] at heq
        exact (List.cons.inj heq).1.symm
    · next hsplit => exact fun f hf => hskip _ _ _ (ih f hf) (hsplit f.name)

end

theorem archiveFile_ne_manifestFile : archiveFile ≠ manifestFile := by decide

/-- The flags of a folder are right for a set of files. -/
structure Found.Marks (f : Found) (files : Set Text) : Prop where
  archive : f.archive = true ↔ archiveFile ∈ files
  manifest : f.manifest = true ↔ manifestFile ∈ files
  unexpected : f.unexpected = true ↔ ∃ file ∈ files, file ≠ archiveFile ∧ file ≠ manifestFile

theorem Found.Marks.note {f : Found} {files : Set Text} (h : f.Marks files) (file : Text)
    (size : ℤ) : (f.note file size).Marks (insert file files) := by
  have hne := archiveFile_ne_manifestFile
  unfold Found.note
  by_cases ha : file = archiveFile
  · subst ha
    exact ⟨by simp, by simp [h.manifest, hne.symm], by simp [h.unexpected]⟩
  · by_cases hm : file = manifestFile
    · subst hm
      exact ⟨by simp [ha, h.archive, hne], by simp [ha], by simp [ha, h.unexpected]⟩
    · exact ⟨by simp [h.archive, ha, hm, eq_comm], by simp [h.manifest, ha, hm, eq_comm],
        by simp [ha, hm]⟩

/-- Reading a listing marks all of its objects. -/
theorem marks (root : Text) (objects : List Object) :
    ∀ f ∈ objects.foldl (addObject root) [], f.Marks (listedFiles root objects f.name) := by
  refine foldl_addObject (P := fun objects f => f.Marks (listedFiles root objects f.name))
    (fun _ _ hno => ?_) (fun _ o f file h ho => ?_) (fun _ _ _ h ho => ?_)
  · rw [hno]
    exact ⟨by simp, by simp, by simp⟩
  · rw [Found.note_name, listedFiles_note ho]
    exact h.note file o.size
  · rw [listedFiles_skip ho]
    exact h

/-! ### Entries -/

open Classical in
/-- The state of a folder with a set of files. -/
noncomputable def stateOf (name : Text) (files : Set Text) : State :=
  if (parseDirectorySegment name).2 = false then .damaged
  else if files = {archiveFile, manifestFile} then .complete
  else if files = {archiveFile} then .archiveOnly
  else if files = {manifestFile} then .manifestOnly
  else .damaged

/-- What the entry of a folder says, from the set of its files. -/
structure EntryOf (root name : Text) (files : Set Text) (e : Entry) : Prop where
  nonempty : files.Nonempty
  directory : e.directory = root ++ name
  manifestKey : e.manifestKey = root ++ name ++ '/' :: manifestFile
  archiveKey : e.archiveKey = root ++ name ++ '/' :: archiveFile
  takenAt : e.takenAt = (parseDirectorySegment name).1
  state : e.state = stateOf name files

section
variable {root name : Text} {files : Set Text} {e : Entry}

theorem EntryOf.parses (h : EntryOf root name files e) (hstate : e.state ≠ .damaged) :
    (parseDirectorySegment name).2 = true := by
  by_contra hno
  exact hstate (h.state.trans (if_pos (Bool.eq_false_iff.mpr hno)))

theorem EntryOf.complete (h : EntryOf root name files e) : e.state = .complete ↔
    (parseDirectorySegment name).2 = true ∧ files = {archiveFile, manifestFile} := by
  rw [h.state, stateOf]
  split_ifs with hparse <;> simp_all

end

section Flags

variable {files : Set Text} (hu : ¬ ∃ file ∈ files, file ≠ archiveFile ∧ file ≠ manifestFile)
include hu

theorem subset_of_expected : files ⊆ {archiveFile, manifestFile} := by
  intro file hfile
  by_contra hno
  simp only [Set.mem_insert_iff, Set.mem_singleton_iff, not_or] at hno
  exact hu ⟨file, hfile, hno⟩

theorem eq_both (ha : archiveFile ∈ files) (hm : manifestFile ∈ files) :
    files = {archiveFile, manifestFile} :=
  (subset_of_expected hu).antisymm (Set.insert_subset ha (Set.singleton_subset_iff.mpr hm))

theorem eq_archive (ha : archiveFile ∈ files) (hm : manifestFile ∉ files) :
    files = {archiveFile} := by
  refine Set.Subset.antisymm (fun file hfile => ?_) (Set.singleton_subset_iff.mpr ha)
  rcases subset_of_expected hu hfile with rfl | rfl
  · rfl
  · exact absurd hfile hm

theorem eq_manifest (ha : archiveFile ∉ files) (hne : files.Nonempty) :
    files = {manifestFile} := by
  have hall : ∀ file ∈ files, file = manifestFile := by
    intro file hfile
    rcases subset_of_expected hu hfile with rfl | rfl
    · exact absurd hfile ha
    · rfl
  obtain ⟨file, hfile⟩ := hne
  refine Set.Subset.antisymm hall (Set.singleton_subset_iff.mpr ?_)
  exact hall file hfile ▸ hfile

end Flags

/-- The state an entry is given is the one of the set of files. -/
theorem Found.Marks.state {f : Found} {files : Set Text} (h : f.Marks files)
    (hne : files.Nonempty) (root : Text) : (f.entry root).state = stateOf f.name files := by
  obtain ⟨ha, hm, hu⟩ := h
  have hsingle : ({archiveFile} : Set Text) ≠ {archiveFile, manifestFile} := by
    intro h
    have hmem : manifestFile ∈ ({archiveFile} : Set Text) := h ▸ Set.mem_insert_of_mem _ rfl
    exact archiveFile_ne_manifestFile hmem.symm
  unfold Found.entry stateOf
  dsimp only
  by_cases hparse : (parseDirectorySegment f.name).2 = false
  · rw [hparse]
    rfl
  rw [if_neg hparse, Bool.not_eq_false] at *
  rw [hparse]
  by_cases hunexpected : f.unexpected = true
  · obtain ⟨file, hfile, hna, hnm⟩ := hu.mp hunexpected
    -- none of the three sets has the file
    have hnot : ∀ {s : Set Text}, file ∉ s → files ≠ s := fun hs heq => hs (heq ▸ hfile)
    rw [hunexpected, if_pos (by rfl), if_neg (hnot (by simp [hna, hnm])),
      if_neg (hnot (by simp [hna])), if_neg (hnot (by simp [hnm]))]
  · have hexpected := hunexpected
    rw [hu] at hexpected
    rw [Bool.not_eq_true] at hunexpected
    rw [hunexpected]
    by_cases harchive : f.archive = true
    · by_cases hmanifest : f.manifest = true
      · rw [harchive, hmanifest, if_pos (eq_both hexpected (ha.mp harchive) (hm.mp hmanifest))]
        rfl
      · have hfiles := eq_archive hexpected (ha.mp harchive) (fun h => hmanifest (hm.mpr h))
        rw [Bool.not_eq_true] at hmanifest
        rw [harchive, hmanifest, hfiles, if_neg hsingle]
        simp
    · have hfiles := eq_manifest hexpected (fun h => harchive (ha.mpr h)) hne
      have hno : ∀ {s : Set Text}, archiveFile ∈ s → files ≠ s :=
        fun hs heq => harchive (ha.mpr (heq ▸ hs))
      rw [if_neg (hno (Set.mem_insert _ _)), if_neg (hno (Set.mem_singleton _)),
        if_pos hfiles]
      rw [Bool.not_eq_true] at harchive
      rw [harchive]
      rfl

section
variable {root name : Text} {objects : List Object}

theorem Found.entryOf {f : Found} (hf : f ∈ objects.foldl (addObject root) []) :
    EntryOf root f.name (listedFiles root objects f.name) (f.entry root) := by
  have hne : (listedFiles root objects f.name).Nonempty := exists_found_iff.mp ⟨f, hf, rfl⟩
  exact ⟨hne, rfl, rfl, rfl, rfl, (marks root objects f hf).state hne root⟩

/-- The entries of a listing are those of its folders. -/
theorem entryOf_of_mem {e : Entry} (he : e ∈ entriesFrom root objects) :
    ∃ name, EntryOf root name (listedFiles root objects name) e := by
  obtain ⟨f, hf, rfl⟩ := mem_entriesFrom.mp he
  exact ⟨f.name, Found.entryOf hf⟩

theorem exists_entry {file : Text} (h : HasFile root objects name file) :
    ∃ e ∈ entriesFrom root objects, EntryOf root name (listedFiles root objects name) e := by
  obtain ⟨f, hf, rfl⟩ := exists_found_iff.mpr ⟨file, h⟩
  exact ⟨f.entry root, mem_entriesFrom.mpr ⟨f, hf, rfl⟩, Found.entryOf hf⟩

/-- With both files in the folder, only another file spoils the entry. -/
theorem EntryOf.complete_iff_expected {e : Entry}
    (h : EntryOf root name (listedFiles root objects name) e)
    (hparse : (parseDirectorySegment name).2 = true) (ha : HasFile root objects name archiveFile)
    (hm : HasFile root objects name manifestFile) :
    e.state = .complete ↔ ¬ HasUnexpected root objects name := by
  rw [h.complete, and_iff_right hparse]
  constructor
  · rintro hfiles ⟨file, hna, hnm, hfile⟩
    have hmem : file ∈ listedFiles root objects name := hfile
    rw [hfiles] at hmem
    exact hmem.elim hna hnm
  · intro hno
    refine eq_both ?_ ha hm
    rintro ⟨file, hfile, hna, hnm⟩
    exact hno ⟨file, hna, hnm, hfile⟩

end

/-! ### Keys -/

theorem segment_of_valid {d : Text} (h : validDatabaseSegment d = true) : Text.Segment d := by
  cases d with
  | nil => cases h
  | cons c rest =>
    have hc : ('a' ≤ c ∧ c ≤ 'z') ∧ ∀ x ∈ rest, (('a' ≤ x ∧ x ≤ 'z') ∨ ('0' ≤ x ∧ x ≤ '9')) ∨
        x = '_' := by
      simp only [validDatabaseSegment, Bool.and_eq_true, decide_eq_true_eq, List.all_eq_true,
        Bool.or_eq_true] at h
      exact ⟨h.1.1, h.2⟩
    have hfirst : ∀ x : Char, ¬ ('a' ≤ x) → c ≠ x := fun x hx hcx => hx (hcx ▸ hc.1.1)
    refine ⟨by simp, ?_, ?_, ?_⟩
    · intro hslash
      rcases List.mem_cons.mp hslash with hx | hx
      · exact hfirst '/' (by decide) hx.symm
      · rcases hc.2 '/' hx with (hx | hx) | hx
        · exact absurd hx.1 (by decide)
        · exact absurd hx.1 (by decide)
        · exact absurd hx (by decide)
    · intro hx
      exact hfirst '.' (by decide) (List.cons.inj hx).1
    · intro hx
      exact hfirst '.' (by decide) (List.cons.inj hx).1

theorem segment_backups : Text.Segment Settings.backupsSegment := by
  refine ⟨?_, ?_, ?_, ?_⟩ <;> decide

/-- The folder of a database is the folder below the one of all databases. -/
theorem databaseRoot_eq (s : Settings) {d : Text} (h : validDatabaseSegment d = true) :
    s.databaseRoot d = s.backupsRoot ++ d ++ ['/'] := by
  have hjoin := Text.joinPath_snoc [Text.trim '/' s.folder] segment_backups (segment_of_valid h)
  show Text.joinPath _ ++ ['/'] = Text.joinPath _ ++ ['/'] ++ d ++ ['/']
  simp only [List.cons_append, List.nil_append] at hjoin
  rw [hjoin]
  simp

/-- The key of a file in a folder of a database. -/
def fileKey (s : Settings) (d name file : Text) : Text := s.databaseRoot d ++ name ++ '/' :: file

theorem split_fileKey (s : Settings) {d name file : Text} (hd : validDatabaseSegment d = true)
    (hname : '/' ∉ name) (hfile : '/' ∉ file) :
    Text.split '/' (Text.trimPrefix s.backupsRoot (fileKey s d name file)) = [d, name, file] := by
  have hkey : fileKey s d name file = s.backupsRoot ++ (d ++ '/' :: (name ++ '/' :: file)) := by
    rw [fileKey, databaseRoot_eq s hd]
    simp
  rw [hkey, Text.trimPrefix_append, Text.split_append (segment_of_valid hd).slash,
    Text.split_append hname, Text.split_of_not_mem hfile]

/-- A key determines the database, the folder and the file. -/
theorem fileKey_inj {s : Settings} {d d' name name' file file' : Text}
    (hd : validDatabaseSegment d = true) (hd' : validDatabaseSegment d' = true)
    (hname : '/' ∉ name) (hname' : '/' ∉ name') (hfile : '/' ∉ file) (hfile' : '/' ∉ file')
    (h : fileKey s d name file = fileKey s d' name' file') :
    d = d' ∧ name = name' ∧ file = file' := by
  have hsplit := split_fileKey s hd hname hfile
  rw [h, split_fileKey s hd' hname' hfile'] at hsplit
  simpa [eq_comm] using hsplit

/-- The manifest key of a listed folder leads back to the folder. -/
theorem entryFor_fileKey (s : Settings) {d name : Text} (hd : validDatabaseSegment d = true)
    (hname : '/' ∉ name) (hparse : (parseDirectorySegment name).2 = true) :
    s.entryFor (fileKey s d name manifestFile) = .ok
      { directory := s.databaseRoot d ++ name
        manifestKey := fileKey s d name manifestFile
        archiveKey := fileKey s d name archiveFile
        takenAt := (parseDirectorySegment name).1 } := by
  have hroot : s.backupsRoot.isPrefixOf (fileKey s d name manifestFile) = true := by
    rw [List.isPrefixOf_iff_prefix, fileKey, databaseRoot_eq s hd]
    simp
  have hdir : s.backupsRoot ++ d ++ '/' :: name = s.databaseRoot d ++ name := by
    rw [databaseRoot_eq s hd]
    simp
  unfold Settings.entryFor
  dsimp only
  rw [split_fileKey s hd hname (by decide)]
  simp only [hroot, hd, hparse, hdir, ne_eq, not_true_eq_false, decide_false, Bool.not_true,
    Bool.or_false, Bool.false_eq_true, if_false]
  rfl

/-- Of an entry, `checkManifest` sees the folder and the two keys. -/
theorem checkManifest_congr {m : Manifest} {e e' : Entry} (hdir : e.directory = e'.directory)
    (hm : e.manifestKey = e'.manifestKey) (ha : e.archiveKey = e'.archiveKey) :
    checkManifest m e = checkManifest m e' := by
  have hparent : e.parent = e'.parent := by rw [Entry.parent, Entry.parent, hdir]
  have hname : e.directoryName = e'.directoryName := by
    rw [Entry.directoryName, Entry.directoryName, hdir]
  unfold checkManifest
  rw [hm, ha, hparent, hname]

/-- What the client returns passes `checkManifest` where it lies. -/
theorem decodeManifest_ok {s : Settings} {key : Text} {c : Content} {m : Manifest}
    (h : s.decodeManifest key c = .ok m) :
    ∃ entry, s.entryFor key = .ok entry ∧ checkManifest m entry = .ok () := by
  unfold Settings.decodeManifest at h
  split at h
  · cases h
  · next entry hentry =>
    split at h
    · cases h
    · split at h
      · cases h
      · split at h
        · next hcheck =>
          obtain rfl := Except.ok.inj h
          exact ⟨entry, hentry, hcheck⟩
        · cases h

end Storage

end Pgfy
