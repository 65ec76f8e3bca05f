import StylePack.Proofs.Disk.Missing

/-! Where a disk is changed. What is at a location is looked at apart from what lies below it: a
file with its bytes, a folder, or nothing (`Entry.shell?`). To make folders changes only locations
at which nothing was, and each of them is that of a path that was to be made (`made_makeAll`). To
write or to remove a file changes the location of its path only (`shell?_writeFile`,
`shell?_removeFile`). -/
namespace StylePack
open OrderedMap (lookup write)

namespace Entry
variable {e e' : Entry} {l m : Location} {name : String} {es : List (String × Entry)}

/-- An entry without what it holds. -/
def shell : Entry → Entry
  | file bytes => file bytes
  | folder _ => folder []

/-- What is at a location, without what lies below it. -/
def shell? (e : Entry) (l : Location) : Option Entry := (e.find? l).map shell

/-- An entry that holds nothing. -/
def Hollow (e : Entry) : Prop := ∀ name l, e.find? (name :: l) = none

theorem hollow_file (bytes : ByteArray) : (file bytes).Hollow := fun _ _ => rfl

theorem hollow_empty : (folder []).Hollow := fun _ _ => rfl

theorem shell?_eq_none_iff : e.shell? l = none ↔ e.find? l = none := Option.map_eq_none_iff

theorem shell?_eq_folder_iff :
    e.shell? l = some (folder []) ↔ ∃ es, e.find? l = some (folder es) := by
  rw [shell?, Option.map_eq_some_iff]
  constructor
  · rintro ⟨f, hf, hshell⟩
    cases f with
    | file bytes => cases hshell
    | folder es => exact ⟨es, hf⟩
  · rintro ⟨es, hes⟩
    exact ⟨folder es, hes, rfl⟩

/-- An edit in a folder that concerns one name, under which nothing is held before or after, is
seen at no other location. -/
theorem shell?_edit {change : List (String × Entry) → List (String × Entry)}
    (h : e.find? l = some (folder es))
    (hchange : ∀ k, k ≠ name → lookup k (change es) = lookup k es)
    (hold : ∀ f, lookup name es = some f → f.Hollow)
    (hnew : ∀ f, lookup name (change es) = some f → f.Hollow) (hm : m ≠ l ++ [name]) :
    (e.edit change l).shell? m = e.shell? m := by
  induction l generalizing e m with
  | nil =>
    rw [find?_nil] at h
    cases h
    cases m with
    | nil => rfl
    | cons n k =>
      by_cases hn : n = name
      · subst hn
        obtain ⟨n', k, rfl⟩ := List.exists_cons_of_ne_nil fun hk => hm (congrArg (n :: ·) hk)
        have hnone : ∀ fs : List (String × Entry), (∀ f, lookup n fs = some f → f.Hollow) →
            (folder fs).find? (n :: n' :: k) = none := fun fs hfs =>
          Option.bind_eq_none_iff.mpr fun f hf => hfs f hf n' k
        rw [shell?, shell?, edit, hnone _ hold, hnone _ hnew]
      · rw [shell?, shell?, edit, find?_folder_cons, find?_folder_cons, hchange n hn]
  | cons n l ih =>
    obtain ⟨fs, rfl⟩ := isFolder_of_find? h
    rw [find?_folder_cons] at h
    obtain ⟨g, hg, hgl⟩ := Option.bind_eq_some_iff.mp h
    cases m with
    | nil =>
      rw [edit, hg]
      rfl
    | cons n' k =>
      by_cases hn : n' = n
      · subst hn
        have hk : k ≠ l ++ [name] := fun he => hm (congrArg (n' :: ·) he)
        rw [shell?, shell?, find?_edit_cons_self, find?_folder_cons, hg, Option.bind_some,
          Option.bind_some]
        exact ih hgl hk
      · rw [shell?, shell?, find?_edit_cons_ne hn]

theorem shell?_put (h : e.find? l = some (folder es))
    (hfree : ∀ fs, lookup name es ≠ some (folder fs)) {new : Entry} (hnew : new.Hollow)
    (hm : m ≠ l ++ [name]) : (e.put l name new).shell? m = e.shell? m := by
  refine shell?_edit h (fun k hk => OrderedMap.lookup_write_ne new hk es) (fun f hf => ?_)
    (fun f hf => ?_) hm
  · cases f with
    | file bytes => exact hollow_file bytes
    | folder fs => exact absurd hf (hfree fs)
  · rw [OrderedMap.lookup_write_self] at hf
    exact Option.some.inj hf ▸ hnew

theorem shell?_take {bytes : ByteArray} (h : e.find? l = some (folder es))
    (hfile : lookup name es = some (file bytes)) (hm : m ≠ l ++ [name]) :
    (e.take l name).shell? m = e.shell? m := by
  refine shell?_edit h (fun k hk => OrderedMap.lookup_filter_of_ne hk es) (fun f hf => ?_)
    (fun f hf => ?_) hm
  · rw [hfile] at hf
    exact Option.some.inj hf ▸ hollow_file bytes
  · rw [lookup_filter_ne] at hf
    cases hf

/-- Folders are kept where a change concerns no folder. -/
theorem foldersKept_of_shell?
    (h : ∀ m, e'.shell? m ≠ e.shell? m → e.shell? m ≠ some (folder [])) : FoldersKept e e' := by
  intro l es hl
  have hfolder : e.shell? l = some (folder []) := shell?_eq_folder_iff.mpr ⟨es, hl⟩
  by_cases hchanged : e'.shell? l = e.shell? l
  · exact shell?_eq_folder_iff.mp (hchanged.trans hfolder)
  · exact absurd hfolder (h l hchanged)

end Entry

namespace Disk
variable {d d' d'' : Disk} {l m : Location} {p : Path} {qs : List Path} {bytes : ByteArray}

theorem locate_of_shell? (hkept : Kept d d') (h : d.locate p = .ok l)
    (hl : d.root.shell? l = some (.folder [])) : d'.locate p = .ok l := by
  obtain ⟨es, hes⟩ := Entry.shell?_eq_folder_iff.mp hl
  exact locate_kept hkept h hes

/-- The only changes between two disks are new folders, at the locations of some paths. -/
structure Made (qs : List Path) (d d' : Disk) : Prop where
  work_eq : d'.work = d.work
  change : ∀ m, d'.root.shell? m ≠ d.root.shell? m → d.root.shell? m = none ∧
    d'.root.shell? m = some (.folder []) ∧ ∃ q ∈ qs, d'.locate q = .ok m

namespace Made

theorem refl (qs : List Path) (d : Disk) : Made qs d d := ⟨rfl, fun _ hm => absurd rfl hm⟩

theorem kept (h : Made qs d d') : Kept d d' :=
  ⟨h.work_eq, Entry.foldersKept_of_shell? fun m hm => by
    rw [(h.change m hm).1]
    nofun⟩

/-- What is made first stays where it is. -/
theorem trans (h : Made qs d d') (h' : Made qs d' d'') : Made qs d d'' := by
  refine ⟨h'.work_eq.trans h.work_eq, fun m hm => ?_⟩
  by_cases hlater : d''.root.shell? m = d'.root.shell? m
  · rw [hlater] at hm ⊢
    obtain ⟨hnone, hfolder, q, hq, hlocate⟩ := h.change m hm
    exact ⟨hnone, hfolder, q, hq, locate_of_shell? h'.kept hlocate hfolder⟩
  · obtain ⟨hnone, hfolder, hq⟩ := h'.change m hlater
    refine ⟨?_, hfolder, hq⟩
    by_contra hsome
    have hfirst := (h.change m fun he => hsome (he.symm.trans hnone)).2.1
    rw [hnone] at hfirst
    cases hfirst

end Made

theorem made_makeFolder (h : d.makeFolder p = .ok d') (hp : p ∈ qs) : Made qs d d' := by
  obtain ⟨ps, name, rs, l, es, hroute, hrs, hproper, hsize, hwalk, hl, hnone, rfl⟩ :=
    makeFolder_eq_ok h
  have hfree : ∀ fs, lookup name es ≠ some (.folder fs) := by simp [hnone]
  have hmade := Entry.find?_put_self hl name (.folder [])
  refine ⟨rfl, fun m hm => ?_⟩
  obtain rfl : m = l ++ [name] := by
    by_contra hne
    exact hm (Entry.shell?_put hl hfree Entry.hollow_empty hne)
  refine ⟨?_, Entry.shell?_eq_folder_iff.mpr ⟨[], hmade⟩, p, hp, ?_⟩
  · rw [Entry.shell?_eq_none_iff, find?_concat hl, hnone]
  · exact locate_eq_ok.mpr ⟨_, hroute,
      walk_append_empty hrs (walk_put hwalk hl hproper hsize hfree (.folder [])) hmade⟩

theorem made_makeFolders (qs : List Path) (d : Disk) : Made qs d (d.makeFolders qs).2 :=
  makeFolders_induction (motive := Made qs d) (Made.refl qs d) fun _ hq hmade hmake =>
    hmade.trans (made_makeFolder hmake hq)

/-- To make a folder makes it and the folders around it, and changes nothing else. -/
theorem made_makeAll (d : Disk) (p : Path) : Made (p :: p.around) d (d.makeAll p).2 where
  work_eq := work_makeFolders d _
  change m hm := by
    obtain ⟨hnone, hfolder, q, hq, hlocate⟩ := (made_makeFolders _ d).change m hm
    exact ⟨hnone, hfolder, q, (List.mem_filter.mp hq).1, hlocate⟩

/-- To write a file changes nothing but this file. -/
theorem shell?_writeFile (h : d.writeFile p bytes = .ok d')
    (hm : d'.root.shell? m ≠ d.root.shell? m) : d'.locate p = .ok m ∧
      d'.root.shell? m = some (.file bytes) ∧ d.root.shell? m ≠ some (.folder []) := by
  obtain ⟨ps, name, l, es, hroute, hproper, hsize, hwalk, hl, hfree, rfl⟩ := writeFile_eq_ok h
  obtain rfl : m = l ++ [name] := by
    by_contra hne
    exact hm (Entry.shell?_put hl hfree (Entry.hollow_file bytes) hne)
  refine ⟨locate_eq_ok.mpr ⟨_, hroute, walk_put hwalk hl hproper hsize hfree (.file bytes)⟩, ?_, ?_⟩
  · rw [root_put, Entry.shell?, Entry.find?_put_self hl]
    rfl
  · rw [Ne, Entry.shell?_eq_folder_iff, find?_concat hl]
    exact fun ⟨fs, hfs⟩ => hfree fs hfs

/-- To write a file leaves all folders where they are. -/
theorem kept_writeFile (h : d.writeFile p bytes = .ok d') : Kept d d' where
  work_eq := by
    obtain ⟨ps, name, l, es, -, -, -, -, -, -, rfl⟩ := writeFile_eq_ok h
    rfl
  folders := Entry.foldersKept_of_shell? fun m hm => (shell?_writeFile h hm).2.2

/-- What it takes to remove a file, and what it changes. -/
theorem removeFile_eq_ok (h : d.removeFile p = .ok d') : ∃ l name es bytes,
    d.locate p = .ok (l ++ [name]) ∧ d.root.find? l = some (.folder es) ∧
      lookup name es = some (.file bytes) ∧ d' = d.take l name := by
  obtain ⟨m, hlocate, hremove⟩ := bind_eq_ok.mp h
  split at hremove
  · rename_i bytes name hfile hlast
    cases hremove
    obtain ⟨l, rfl⟩ := List.getLast?_eq_some_iff.mp hlast
    rw [Entry.find?_append] at hfile
    obtain ⟨f, hf, hfl⟩ := Option.bind_eq_some_iff.mp hfile
    cases f with
    | file bytes => cases hfl
    | folder es =>
      have hlook : lookup name es = some (.file bytes) := by
        rw [← find?_concat hf, Entry.find?_append, hf]
        exact hfl
      exact ⟨l, name, es, bytes, hlocate, hf, hlook, by rw [List.dropLast_concat]⟩
  · cases hremove
  · cases hremove

/-- To remove a file changes nothing but this file. -/
theorem shell?_removeFile (h : d.removeFile p = .ok d')
    (hm : d'.root.shell? m ≠ d.root.shell? m) : d.locate p = .ok m ∧
      (∃ bytes, d.root.shell? m = some (.file bytes)) ∧ d'.root.shell? m = none := by
  obtain ⟨l, name, es, bytes, hlocate, hl, hfile, rfl⟩ := removeFile_eq_ok h
  obtain rfl : m = l ++ [name] := by
    by_contra hne
    exact hm (Entry.shell?_take hl hfile hne)
  refine ⟨hlocate, ⟨bytes, ?_⟩, Entry.shell?_eq_none_iff.mpr (Entry.find?_take_self hl name)⟩
  rw [Entry.shell?, find?_concat hl, hfile]
  rfl

end Disk
end StylePack
