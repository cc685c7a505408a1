import Pgfy.Storage.Listing

/-! # The classification of a listing

    `EntriesFrom` collects the objects of a listing into a map of folders and
    sorts what comes out. Here the result is described by the objects alone, as
    a set: which folders have an entry, and what the entry of a folder says from
    the set of files that lie directly in it. Neither the order of the listing
    nor objects at another depth have a part in it.
-/

namespace Pgfy

namespace Storage

variable {root : Text} {objects : List Object}

/-! ### The set-level description -/

/-- The object is the file of the folder directly below `root`. -/
def Object.IsFile (root : Text) (o : Object) (name file : Text) : Prop :=
  o.key = root ++ name ++ '/' :: file ∧ '/' ∉ name ∧ '/' ∉ file

/-- The names of the files directly in a folder. -/
def filesOf (root : Text) (objects : List Object) (name : Text) : Set Text :=
  { file | ∃ o ∈ objects, o.IsFile root name file }

/-- What an entry says of the folder. -/
structure Describes (root : Text) (objects : List Object) (name : Text) (e : Entry) : Prop
    extends EntryOf root name (filesOf root objects name) e where
  size : ∀ o ∈ objects, o.IsFile root name archiveFile → e.sizeBytes = o.size
  noSize : archiveFile ∉ filesOf root objects name → e.sizeBytes = 0

/-- Later times first; of one time, the greater folder. -/
def Entry.StrictlyBefore (a b : Entry) : Prop :=
  b.takenAt < a.takenAt ∨ (a.takenAt = b.takenAt ∧ b.directory < a.directory)

/-- The key names a file directly in a folder below `root`. -/
def Object.direct (root : Text) (o : Object) : Bool := (o.key.drop root.length).count '/' == 1

/-! ### Files and split keys -/

theorem split_eq_iff {o : Object} (ho : root <+: o.key) {name file : Text} :
    Text.split '/' (Text.trimPrefix root o.key) = [name, file] ↔ o.IsFile root name file := by
  obtain ⟨rest, hrest⟩ := ho
  rw [← hrest, Text.trimPrefix_append, Text.split_eq_pair, Object.IsFile, ← hrest,
    List.append_assoc, List.append_cancel_left_eq]

theorem listedFiles_eq (hroot : ∀ o ∈ objects, root <+: o.key) (name : Text) :
    listedFiles root objects name = filesOf root objects name := by
  ext file
  constructor
  · rintro ⟨o, ho, hsplit⟩
    exact ⟨o, ho, (split_eq_iff (hroot o ho)).mp hsplit⟩
  · rintro ⟨o, ho, hfile⟩
    exact ⟨o, ho, (split_eq_iff (hroot o ho)).mpr hfile⟩

/-- Distinct keys: a file of a folder is one object. -/
theorem IsFile.unique (hkeys : (objects.map Object.key).Nodup) {o o' : Object}
    (ho : o ∈ objects) (ho' : o' ∈ objects) {name file : Text} (h : o.IsFile root name file)
    (h' : o'.IsFile root name file) : o = o' :=
  List.inj_on_of_nodup_map hkeys ho ho' (h.1.trans h'.1.symm)

/-! ### Sizes -/

/-- The size noted for a folder is that of an archive in it, or nothing. -/
def Sized (root : Text) (objects : List Object) (f : Found) : Prop :=
  (∃ o ∈ objects, Text.split '/' (Text.trimPrefix root o.key) = [f.name, archiveFile] ∧
    f.size = o.size) ∨ (archiveFile ∉ listedFiles root objects f.name ∧ f.size = 0)

theorem Sized.snoc {f : Found} {o : Object} (h : Sized root objects f)
    (ho : Text.split '/' (Text.trimPrefix root o.key) ≠ [f.name, archiveFile]) :
    Sized root (objects ++ [o]) f := by
  rcases h with ⟨o', ho', hsplit, hsize⟩ | ⟨hno, hsize⟩
  · exact Or.inl ⟨o', List.mem_append_left _ ho', hsplit, hsize⟩
  · exact Or.inr ⟨fun hf => (hasFile_snoc.mp hf).elim hno ho, hsize⟩

theorem Found.note_size (f : Found) {file : Text} (hfile : file ≠ archiveFile) (size : ℤ) :
    (f.note file size).size = f.size := by
  unfold Found.note
  rw [if_neg hfile]
  split <;> rfl

theorem Sized.note {f : Found} {o : Object} {file : Text} (h : Sized root objects f)
    (ho : Text.split '/' (Text.trimPrefix root o.key) = [f.name, file]) :
    Sized root (objects ++ [o]) (f.note file o.size) := by
  by_cases hfile : file = archiveFile
  · subst hfile
    refine Or.inl ⟨o, by simp, by rw [Found.note_name]; exact ho, ?_⟩
    simp [Found.note]
  · have hne : Text.split '/' (Text.trimPrefix root o.key) ≠ [f.name, archiveFile] := by
      rw [ho]
      simpa using hfile
    have hkept := h.snoc hne
    unfold Sized at hkept ⊢
    rw [Found.note_name, Found.note_size f hfile]
    exact hkept

theorem sized (root : Text) (objects : List Object) :
    ∀ f ∈ objects.foldl (addObject root) [], Sized root objects f :=
  foldl_addObject (fun _ _ hno => Or.inr ⟨by simp [hno], rfl⟩) (fun _ _ _ _ h ho => h.note ho)
    (fun _ _ _ h ho => h.snoc (ho archiveFile))

/-! ### The entry of a folder -/

section Listing

variable (hkeys : (objects.map Object.key).Nodup) (hroot : ∀ o ∈ objects, root <+: o.key)
include hkeys hroot

theorem Found.describes {f : Found} (hf : f ∈ objects.foldl (addObject root) []) :
    Describes root objects f.name (f.entry root) := by
  have hfiles := listedFiles_eq hroot f.name
  refine ⟨hfiles ▸ Found.entryOf hf, fun o ho hfile => ?_, fun hno => ?_⟩
  · rcases sized root objects f hf with ⟨o', ho', hsplit, hsize⟩ | ⟨hno, -⟩
    · obtain rfl := IsFile.unique hkeys ho ho' hfile ((split_eq_iff (hroot o' ho')).mp hsplit)
      exact hsize
    · exact absurd (hfiles ▸ ⟨o, ho, hfile⟩) hno
  · rcases sized root objects f hf with ⟨o', ho', hsplit, -⟩ | ⟨-, hsize⟩
    · exact absurd ⟨o', ho', (split_eq_iff (hroot o' ho')).mp hsplit⟩ hno
    · exact hsize

omit hkeys hroot in
/-- A description leaves nothing open. -/
theorem Describes.unique {name : Text} {e e' : Entry} (h : Describes root objects name e)
    (h' : Describes root objects name e') : e = e' := by
  have hsize : e.sizeBytes = e'.sizeBytes := by
    by_cases harchive : archiveFile ∈ filesOf root objects name
    · obtain ⟨o, ho, hfile⟩ := harchive
      rw [h.size o ho hfile, h'.size o ho hfile]
    · rw [h.noSize harchive, h'.noSize harchive]
  cases e
  cases e'
  simp only [Entry.mk.injEq]
  exact ⟨h.directory.trans h'.directory.symm, h.manifestKey.trans h'.manifestKey.symm,
    h.archiveKey.trans h'.archiveKey.symm, h.takenAt.trans h'.takenAt.symm,
    h.state.trans h'.state.symm, hsize⟩

theorem mem_entriesFrom_iff {e : Entry} :
    e ∈ entriesFrom root objects ↔ ∃ name, Describes root objects name e := by
  constructor
  · intro he
    obtain ⟨f, hf, rfl⟩ := mem_entriesFrom.mp he
    exact ⟨f.name, Found.describes hkeys hroot hf⟩
  · rintro ⟨name, hdesc⟩
    obtain ⟨f, hf, rfl⟩ := exists_found_iff.mpr (listedFiles_eq hroot name ▸ hdesc.nonempty)
    obtain rfl := hdesc.unique (Found.describes hkeys hroot hf)
    exact mem_entriesFrom.mpr ⟨f, hf, rfl⟩

end Listing

/-! ### The order -/

instance : Std.Total Entry.Before := ⟨fun a b => by
  rcases lt_trichotomy a.takenAt b.takenAt with h | h | h
  · exact Or.inr (Or.inl h)
  · rcases le_total a.directory b.directory with hd | hd
    · exact Or.inr (Or.inr ⟨h.symm, hd⟩)
    · exact Or.inl (Or.inr ⟨h, hd⟩)
  · exact Or.inl (Or.inl h)⟩

instance : IsTrans Entry Entry.Before := ⟨fun a b c hab hbc => by
  rcases hab with hab | ⟨hab, hd⟩
  · rcases hbc with hbc | ⟨hbc, -⟩
    · exact Or.inl (hbc.trans hab)
    · exact Or.inl (hbc ▸ hab)
  · rcases hbc with hbc | ⟨hbc, hd'⟩
    · exact Or.inl (hab ▸ hbc)
    · exact Or.inr ⟨hab.trans hbc, hd'.trans hd⟩⟩

theorem pairwise_strictlyBefore (root : Text) (objects : List Object) :
    (entriesFrom root objects).Pairwise Entry.StrictlyBefore := by
  have hsorted : (entriesFrom root objects).Pairwise Entry.Before :=
    List.pairwise_insertionSort Entry.Before _
  have hdistinct : (entriesFrom root objects).Pairwise (fun a b => a.directory ≠ b.directory) := by
    have hkeys := nodup_entriesFrom root objects
    rw [List.Nodup, List.pairwise_map] at hkeys
    refine hkeys.imp_of_mem (fun {a b} ha hb hne hdir => hne ?_)
    obtain ⟨name, hname⟩ := entryOf_of_mem ha
    obtain ⟨name', hname'⟩ := entryOf_of_mem hb
    rw [hname.manifestKey, hname'.manifestKey, ← hname.directory, ← hname'.directory, hdir]
  refine (hsorted.and hdistinct).imp (fun {a b} h => ?_)
  obtain ⟨hlt | ⟨heq, hle⟩, hne⟩ := h
  · exact Or.inl hlt
  · exact Or.inr ⟨heq, lt_of_le_of_ne hle (Ne.symm hne)⟩

theorem Entry.StrictlyBefore.asymm {a b : Entry} (h : a.StrictlyBefore b)
    (h' : b.StrictlyBefore a) : False := by
  rcases h with h | ⟨heq, hd⟩
  · rcases h' with h' | ⟨heq', -⟩
    · exact lt_asymm h h'
    · exact absurd heq' h.ne
  · rcases h' with h' | ⟨-, hd'⟩
    · exact absurd heq h'.ne
    · exact lt_asymm hd hd'

/-! ### Objects at another depth -/

theorem count_of_split {s name file : Text} (h : Text.split '/' s = [name, file]) :
    s.count '/' = 1 := by
  obtain ⟨rfl, hname, hfile⟩ := Text.split_eq_pair.mp h
  rw [List.count_append, List.count_eq_zero_of_not_mem hname, List.count_cons_self,
    List.count_eq_zero_of_not_mem hfile]

/-- An object that is not directly in a folder is passed over. -/
theorem addObject_of_not_direct {o : Object} (hroot : root <+: o.key)
    (ho : o.direct root = false) (directories : List Found) :
    addObject root directories o = directories := by
  unfold addObject
  split
  · next name file hsplit =>
    obtain ⟨rest, hrest⟩ := hroot
    rw [← hrest, Text.trimPrefix_append] at hsplit
    rw [Object.direct, ← hrest, List.drop_left, count_of_split hsplit] at ho
    cases ho
  · rfl

theorem entriesFrom_filter (hroot : ∀ o ∈ objects, root <+: o.key) :
    entriesFrom root (objects.filter (Object.direct root)) = entriesFrom root objects := by
  have hfold : ∀ directories, (objects.filter (Object.direct root)).foldl (addObject root)
      directories = objects.foldl (addObject root) directories := by
    induction objects with
    | nil => exact fun _ => rfl
    | cons o rest ih =>
      intro directories
      have hrest := ih (fun o ho => hroot o (List.mem_cons_of_mem _ ho))
      cases ho : o.direct root with
      | true =>
        rw [List.filter_cons_of_pos ho, List.foldl_cons, List.foldl_cons]
        exact hrest _
      | false =>
        rw [List.filter_cons_of_neg (by rw [ho]; exact Bool.false_ne_true), List.foldl_cons,
          addObject_of_not_direct (hroot o List.mem_cons_self) ho]
        exact hrest _
  rw [entriesFrom, entriesFrom, hfold]

/-! ### The result -/

theorem Describes.perm {objects' : List Object} (h : objects'.Perm objects) {name : Text}
    {e : Entry} (hdesc : Describes root objects' name e) : Describes root objects name e := by
  have hfiles : filesOf root objects' name = filesOf root objects name := by
    ext file
    simp only [filesOf, Set.mem_ofPred_eq, h.mem_iff]
  exact ⟨hfiles ▸ hdesc.toEntryOf, fun o ho => hdesc.size o (h.mem_iff.mpr ho),
    hfiles ▸ hdesc.noSize⟩

theorem entriesFrom_perm {objects' : List Object} (hkeys : (objects.map Object.key).Nodup)
    (hroot : ∀ o ∈ objects, root <+: o.key) (h : objects'.Perm objects) :
    entriesFrom root objects' = entriesFrom root objects := by
  have hkeys' : (objects'.map Object.key).Nodup := (h.map _).nodup_iff.mpr hkeys
  have hroot' : ∀ o ∈ objects', root <+: o.key := fun o ho => hroot o (h.mem_iff.mp ho)
  refine List.Perm.eq_of_pairwise (fun a b _ _ hab hba => (hab.asymm hba).elim)
    (pairwise_strictlyBefore root objects') (pairwise_strictlyBefore root objects) ?_
  refine (List.perm_ext_iff_of_nodup (nodup_entriesFrom root objects').of_map
    (nodup_entriesFrom root objects).of_map).mpr (fun e => ?_)
  rw [mem_entriesFrom_iff hkeys' hroot', mem_entriesFrom_iff hkeys hroot]
  exact ⟨fun ⟨name, hd⟩ => ⟨name, hd.perm h⟩, fun ⟨name, hd⟩ => ⟨name, hd.perm h.symm⟩⟩

/-- What `EntriesFrom` makes of a listing of distinct keys below `root`: the same
    for every order; newest first; one entry for each folder that has a file
    directly in it, which says what the set of these files says; and nothing
    from objects at another depth. -/
theorem entriesFrom_classifies (root : Text) (objects : List Object)
    (hkeys : (objects.map Object.key).Nodup) (hroot : ∀ o ∈ objects, root <+: o.key) :
    (∀ objects' : List Object, objects'.Perm objects →
      entriesFrom root objects' = entriesFrom root objects) ∧
    (entriesFrom root objects).Pairwise Entry.StrictlyBefore ∧
    (∀ e ∈ entriesFrom root objects, ∃ name, Describes root objects name e) ∧
    (∀ name, (filesOf root objects name).Nonempty →
      ∃! e, e ∈ entriesFrom root objects ∧ e.directory = root ++ name) ∧
    entriesFrom root (objects.filter (Object.direct root)) = entriesFrom root objects := by
  refine ⟨fun _ h => entriesFrom_perm hkeys hroot h, pairwise_strictlyBefore root objects,
    fun e he => (mem_entriesFrom_iff hkeys hroot).mp he, fun name hne => ?_,
    entriesFrom_filter hroot⟩
  obtain ⟨f, hf, rfl⟩ := exists_found_iff.mpr (listedFiles_eq hroot name ▸ hne)
  have hdesc := Found.describes hkeys hroot hf
  refine ⟨f.entry root, ⟨mem_entriesFrom.mpr ⟨f, hf, rfl⟩, rfl⟩, fun e ⟨he, hdir⟩ => ?_⟩
  obtain ⟨name', hdesc'⟩ := (mem_entriesFrom_iff hkeys hroot).mp he
  obtain rfl : name' = f.name := List.append_cancel_left (hdesc'.directory.symm.trans hdir)
  exact hdesc'.unique hdesc

def sampleRoot : Text := "pgfy/backups/app_0123456789ab/".toList

/-- A complete backup, an archive on its own and an object nested deeper. -/
def sampleListing : List Object :=
  [⟨sampleRoot ++ "20260101T000000Z/archive.dump".toList, 10⟩,
    ⟨sampleRoot ++ "20260101T000000Z/manifest.json".toList, 1⟩,
    ⟨sampleRoot ++ "20260102T000000Z/archive.dump".toList, 20⟩,
    ⟨sampleRoot ++ "20260105T000000Z/nested/manifest.json".toList, 1⟩]

theorem entriesFrom_classifies_sample :
    entriesFrom sampleRoot sampleListing.reverse = entriesFrom sampleRoot sampleListing ∧
      (entriesFrom sampleRoot sampleListing).map Entry.state = [.archiveOnly, .complete] := by
  have hkeys : (sampleListing.map Object.key).Nodup := by decide +kernel
  have hroot : ∀ o ∈ sampleListing, sampleRoot <+: o.key := by decide +kernel
  exact ⟨(entriesFrom_classifies sampleRoot sampleListing hkeys hroot).1 _
    (List.reverse_perm _), by decide +kernel⟩

end Storage

end Pgfy
