import Mathlib.Data.List.Basic
import StylePack.Proofs.Disk.Files
import StylePack.Proofs.Json.Printed
import StylePack.Proofs.Text.ByteOrder
import StylePack.Store

/-! A folder that holds the files of some packages, each under its name, and nothing else
(`Stocked`). Writing and removing a file keep that, and what is loaded and what is listed are the
packages. -/
namespace StylePack

theorem PackageTable.packages_foldl_insert (t : PackageTable) (ps : List Package) :
    (ps.foldl .insert t).packages = t.packages.insertAll (ps.map fun p => (p.name, p)) := by
  induction ps generalizing t with
  | nil => rfl
  | cons p ps ih => exact ih (t.insert p)

namespace Store
open Package (isValidName)
variable {d d' : Disk} {folder : Path} {m : OrderedMap String Styles} {name file : String}
  {e : Entry}

/-- The name of a package's file. -/
def fileName (name : String) : String := name ++ String.ofList ending

/-- The packages in the entries of a folder, in the order of the entries. -/
def packagesIn (folder : Path) (entries : List (String × Entry)) : List Package :=
  entries.filterMap fun x => package? folder x.1 x.2

theorem packages_tableOf (folder : Path) (entries : List (String × Entry)) :
    (tableOf folder entries).packages =
      .ofList ((packagesIn folder entries).map fun p => (p.name, p)) :=
  PackageTable.packages_foldl_insert _ _

/-- Packages with different names are stored as they come. -/
theorem entries_tableOf {entries : List (String × Entry)}
    (h : ((packagesIn folder entries).map Package.name).Nodup) :
    (tableOf folder entries).packages.entries =
      (packagesIn folder entries).map fun p => (p.name, p) := by
  rw [packages_tableOf, OrderedMap.ofList, OrderedMap.entries_insertAll]
  · exact List.nil_append _
  · simpa [Function.comp_def] using h

/-- The file of a package. -/
def fileOf (name : String) (styles : Styles) : Entry :=
  .file (Descriptor.toJson ⟨name, styles⟩).toUTF8

theorem toList_fileName (name : String) : (fileName name).toList = name.toList ++ ending := by
  rw [fileName, String.toList_append, String.toList_ofList]

theorem fileName_injective : Function.Injective fileName := fun a b h => by
  have hlist := congrArg String.toList h
  rw [toList_fileName, toList_fileName, List.append_cancel_right_eq] at hlist
  exact String.toList_inj.mp hlist

theorem stem?_eq_some_iff : stem? file = some name ↔ file = fileName name := by
  constructor
  · intro h
    unfold stem? at h
    dsimp only at h
    split_ifs at h with hsuffix
    obtain ⟨cs, hcs⟩ := List.isSuffixOf_iff_suffix.mp hsuffix
    rw [← hcs, List.length_append, Nat.add_sub_cancel, List.take_left] at h
    rw [← String.toList_inj, toList_fileName, ← hcs, ← Option.some.inj h, String.toList_ofList]
  · rintro rfl
    unfold stem?
    dsimp only
    rw [toList_fileName, if_pos (List.isSuffixOf_iff_suffix.mpr (List.suffix_append _ _)),
      List.length_append, Nat.add_sub_cancel, List.take_left, String.ofList_toList]

theorem isPlain_fileName (h : isValidName name = true) : Disk.IsPlain (fileName name) where
  single := by
    have hslash : '/' ∉ name.toList := by
      intro hmem
      simp [isValidName, hmem] at h
    rw [toList_fileName, List.mem_append, not_or]
    exact ⟨hslash, by decide⟩
  proper := by
    have hlength : 5 ≤ (fileName name).toList.length := by
      rw [toList_fileName, List.length_append]
      exact Nat.le_add_left 5 _
    intro hmem
    simp only [List.mem_cons, List.not_mem_nil, or_false] at hmem
    rcases hmem with hname | hname | hname <;> rw [hname] at hlength <;> simp at hlength

theorem text?_fileOf (name : String) (styles : Styles) :
    (fileOf name styles).text? = some (Descriptor.toJson ⟨name, styles⟩) := by
  rw [fileOf, Entry.text?, String.fromUTF8?, String.toUTF8_eq_toByteArray,
    dif_pos (Descriptor.toJson ⟨name, styles⟩).isValidUTF8]
  rfl

theorem size_fileOf (name : String) (styles : Styles) :
    (fileOf name styles).size = (Descriptor.toJson ⟨name, styles⟩).utf8ByteSize := by
  rw [fileOf, Entry.size, String.toUTF8_eq_toByteArray, String.size_toByteArray]

theorem package?_fileOf (folder : Path) (name : String) (styles : Styles) :
    package? folder (fileName name) (fileOf name styles) =
      some ⟨name, styles, some (pathOf folder name)⟩ := by
  rw [package?, stem?_eq_some_iff.mpr rfl, text?_fileOf]
  simp only [Option.bind_eq_bind, Option.bind_some, Descriptor.ofJson?_toJson]
  rfl

/-- The entries of a folder with the files of some packages. -/
def files (m : OrderedMap String Styles) : List (String × Entry) :=
  m.entries.map fun e => (fileName e.1, fileOf e.1 e.2)

/-- The folder at a path holds the files of some packages and nothing else. -/
structure Stocked (d : Disk) (folder : Path) (m : OrderedMap String Styles) : Prop where
  readFolder_eq : d.readFolder folder = .ok (files m)
  fits : ∀ name ∈ m.keys, Disk.Fits folder (fileName name)

/-- A list of packages: each once, with the size of its file, in the order of the bytes of the
files' names. -/
structure Listed (packages : String → Option Styles) (ps : List Installed) : Prop where
  sorted : ps.Pairwise fun p q => Text.bytes (fileName p.name) < Text.bytes (fileName q.name)
  mem_iff : ∀ p, p ∈ ps ↔ ∃ styles, packages p.name = some styles ∧
    p.bytes = (Descriptor.toJson ⟨p.name, styles⟩).utf8ByteSize

theorem lookup_files (m : OrderedMap String Styles) (name : String) :
    OrderedMap.lookup (fileName name) (files m) = (m.get? name).map (fileOf name) :=
  OrderedMap.lookup_map fileName_injective name m.entries

theorem mem_files_iff : (file, e) ∈ files m ↔
    ∃ name styles, (name, styles) ∈ m.entries ∧ file = fileName name ∧ e = fileOf name styles := by
  simp [files, eq_comm (a := file), eq_comm (a := e)]

theorem nodup_files (m : OrderedMap String Styles) : (files m).Pairwise fun a b => a.1 ≠ b.1 :=
  List.pairwise_map.mpr ((List.pairwise_map.mp m.nodup).imp fileName_injective.ne)

/-- What is listed of a folder that holds the files of some packages. -/
theorem listed (m : OrderedMap String Styles) : Listed m.get? (listing (files m)) where
  sorted := by
    have hlt := Text.pairwise_mergeSort_fst (List.pairwise_map.mpr (nodup_files m))
    refine List.Pairwise.filterMap _ ?_ hlt
    intro a b hab p hp q hq
    simp only [Option.map_eq_some_iff] at hp hq
    obtain ⟨name, hname, rfl⟩ := hp
    obtain ⟨other, hother, rfl⟩ := hq
    rw [stem?_eq_some_iff] at hname hother
    rw [← hname, ← hother]
    exact Text.bytes_lt hab
  mem_iff := by
    intro p
    rw [listing, List.mem_filterMap]
    simp only [List.mem_mergeSort, Option.map_eq_some_iff]
    constructor
    · rintro ⟨⟨file, e⟩, hmem, name, hname, rfl⟩
      obtain ⟨name', styles, hentry, rfl, rfl⟩ := mem_files_iff.mp hmem
      rw [stem?_eq_some_iff, fileName_injective.eq_iff] at hname
      subst hname
      exact ⟨styles, (OrderedMap.lookup_eq_some_iff m.nodup).mpr hentry, size_fileOf _ _⟩
    · rintro ⟨styles, hstyles, hbytes⟩
      refine ⟨(fileName p.name, fileOf p.name styles), mem_files_iff.mpr
        ⟨p.name, styles, (OrderedMap.lookup_eq_some_iff m.nodup).mp hstyles, rfl, rfl⟩,
        p.name, stem?_eq_some_iff.mpr rfl, ?_⟩
      rw [size_fileOf, ← hbytes]

namespace Stocked
variable {p : Descriptor}

theorem write (hmade : d.makeAll folder = (.ok (), d')) (h : Stocked d' folder m)
    (hvalid : isValidName p.name = true) (hfits : Disk.Fits folder (fileName p.name)) :
    ∃ d'', Store.write d folder p = (.ok (pathOf folder p.name), d'') ∧
      Stocked d'' folder (m.insert p.name p.styles) := by
  have hfree : ∀ fs, OrderedMap.lookup (fileName p.name) (files m) ≠ some (.folder fs) := by
    intro fs hfs
    rw [lookup_files, Option.map_eq_some_iff] at hfs
    obtain ⟨styles, -, hstyles⟩ := hfs
    cases hstyles
  obtain ⟨d'', hwrite, hread⟩ := Disk.writeFile_join h.readFolder_eq hfits hfree p.toJson.toUTF8
  have hpath : d'.writeFile (pathOf folder p.name) p.toJson.toUTF8 = .ok d'' := hwrite
  refine ⟨d'', ?_, ?_, ?_⟩
  · rw [Store.write, hvalid, hmade]
    simp only [Bool.not_true, Bool.false_eq_true, if_false, hpath]
  · rw [hread]
    exact congrArg Except.ok (OrderedMap.write_map (g := fileOf) fileName_injective p.name
      p.styles m.entries)
  · intro name hname
    rcases OrderedMap.mem_keys_insert.mp hname with rfl | hname
    · exact hfits
    · exact h.fits name hname

theorem isFile_iff (h : Stocked d folder m) (hvalid : isValidName name = true) :
    d.isFile (pathOf folder name) = true ↔ name ∈ m.keys := by
  rw [← OrderedMap.contains_iff]
  constructor
  · intro hfile
    obtain ⟨bytes, hbytes⟩ :=
      Disk.lookup_of_isFile_join h.readFolder_eq (isPlain_fileName hvalid) hfile
    rw [lookup_files, Option.map_eq_some_iff] at hbytes
    obtain ⟨styles, hstyles, -⟩ := hbytes
    rw [OrderedMap.contains, hstyles]
    rfl
  · intro hname
    obtain ⟨styles, hstyles⟩ := Option.isSome_iff_exists.mp hname
    have hlook : OrderedMap.lookup (fileName name) (files m) = some (fileOf name styles) := by
      rw [lookup_files, hstyles]
      rfl
    exact Disk.isFile_join h.readFolder_eq (h.fits name ((m.contains_iff name).mp hname)) hlook

theorem removeFile (h : Stocked d folder m) (hname : name ∈ m.keys) :
    ∃ d', d.removeFile (pathOf folder name) = .ok d' ∧ Stocked d' folder (m.erase name) := by
  obtain ⟨styles, hstyles⟩ := Option.isSome_iff_exists.mp ((m.contains_iff name).mpr hname)
  have hlook : OrderedMap.lookup (fileName name) (files m) = some (fileOf name styles) := by
    rw [lookup_files, hstyles]
    rfl
  obtain ⟨d', hremove, hread⟩ := Disk.removeFile_join h.readFolder_eq (h.fits name hname) hlook
  refine ⟨d', hremove, ?_, ?_⟩
  · rw [hread]
    exact congrArg Except.ok (OrderedMap.filter_map fileName_injective name m.entries)
  · intro other hother
    exact h.fits other ((List.filter_sublist.map Prod.fst).subset hother)

/-- The loaded table holds the packages, each with its file. -/
theorem get?_load (h : Stocked d folder m) (name : String) :
    (load d folder).get? name =
      (m.get? name).map fun styles => ⟨name, styles, some (pathOf folder name)⟩ := by
  have hin : packagesIn folder (files m) =
      m.entries.map fun e => ⟨e.1, e.2, some (pathOf folder e.1)⟩ := by
    rw [packagesIn, files, List.filterMap_map, ← List.filterMap_eq_map]
    exact List.filterMap_congr fun e _ => package?_fileOf folder e.1 e.2
  have hnodup : ((packagesIn folder (files m)).map Package.name).Nodup := by
    rw [hin, List.map_map]
    exact m.nodup
  rw [load, h.readFolder_eq]
  change OrderedMap.lookup name (tableOf folder (files m)).packages.entries = _
  rw [entries_tableOf hnodup, hin, List.map_map]
  exact OrderedMap.lookup_map (g := fun name styles => Package.mk name styles
    (some (pathOf folder name))) Function.injective_id name m.entries

theorem installed_eq (h : Stocked d folder m) :
    installed d folder = .ok (some (listing (files m))) := by
  obtain ⟨l, hlocate, hl⟩ := Disk.readFolder_eq_ok.mp h.readFolder_eq
  rw [installed, Disk.entry?_of_locate hlocate, hl]
  simp only [h.readFolder_eq, Except.map]

end Stocked

end Store
end StylePack
