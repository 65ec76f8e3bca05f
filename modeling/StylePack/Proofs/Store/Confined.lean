import StylePack.Proofs.Disk.Changes
import StylePack.Proofs.Path
import StylePack.Proofs.Store.Stocked
import StylePack.Proofs.Store.Upkeep

/-! Packages stay in their folder. A valid name leads one step down from the folder, to a file of
its own (`parts_pathOf`). So what is written changes that file and makes missing folders, what is
removed is that file, and where the name is not valid the disk is left alone (`confined`). -/
namespace StylePack.Store
open Package (isValidName)
variable {d d' : Disk} {folder : Path} {name other : String} {p : Descriptor} {l : Location}

theorem parts_pathOf (folder : Path) (h : isValidName name = true) :
    (pathOf folder name).parts = folder.parts ++ [.name (fileName name)] :=
  Path.parts_join (isPlain_fileName h)

/-- Different packages have different files. -/
theorem name_eq_of_parts_pathOf (h : isValidName name = true) (hother : isValidName other = true)
    (hparts : (pathOf folder name).parts = (pathOf folder other).parts) : name = other := by
  rw [parts_pathOf folder h, parts_pathOf folder hother, List.append_cancel_left_eq] at hparts
  exact fileName_injective (Path.Part.name.inj (List.singleton_inj.mp hparts))

/-- The location of a package's file: it lies in the folder, right under the file's name. -/
structure IsFileOf (d : Disk) (folder : Path) (name : String) (l : Location) : Prop where
  located : d.locate (pathOf folder name) = .ok l
  within : ∃ k, d.Leads folder k ∧ l = k ++ [fileName name]

theorem isFileOf_of_locate (h : isValidName name = true)
    (hl : d.locate (pathOf folder name) = .ok l) : IsFileOf d folder name l where
  located := hl
  within := by
    obtain ⟨k, -, hk, -, -, rfl⟩ := Disk.leads_of_locate_join hl (isPlain_fileName h)
    exact ⟨k, hk, rfl⟩

/-- The location of a file that a package is written to, on the disk before and the disk after. -/
structure IsWritten (d d' : Disk) (folder : Path) (p : Descriptor) (l : Location) : Prop
    extends IsFileOf d' folder p.name l where
  before : d.root.shell? l ≠ some (.folder [])
  after : d'.root.shell? l = some (.file p.toJson.toUTF8)

/-- The location of a folder that is new: the packages folder, or one around it. -/
structure IsMade (d d' : Disk) (folder : Path) (l : Location) : Prop where
  before : d.root.shell? l = none
  after : d'.root.shell? l = some (.folder [])
  located : ∃ q ∈ folder :: folder.around, d'.locate q = .ok l

/-- The location of a file that a package is taken out by. -/
structure IsRemoved (d d' : Disk) (folder : Path) (name : String) (l : Location) : Prop
    extends IsFileOf d folder name l where
  before : ∃ bytes, d.root.shell? l = some (.file bytes)
  after : d'.root.shell? l = none

theorem write_of_invalid (d : Disk) (folder : Path) (h : isValidName p.name = false) :
    write d folder p = (.error .invalidName, d) := by
  rw [write, h]
  rfl

/-- The ways to write a package: the disk is left alone, folders are made, and then the file is
written to. -/
theorem write_cases (d : Disk) (folder : Path) (p : Descriptor) :
    (write d folder p).2 = d ∨ (write d folder p).2 = (d.makeAll folder).2 ∨
      (d.makeAll folder).2.writeFile (pathOf folder p.name) p.toJson.toUTF8 =
        .ok (write d folder p).2 := by
  unfold write
  split_ifs with hvalid
  · exact Or.inl rfl
  · split
    · rename_i hmake
      exact Or.inr (Or.inl (by rw [hmake]))
    · rename_i made hmake
      split
      · rename_i hwrite
        exact Or.inr (Or.inr (by rw [hmake, hwrite]))
      · exact Or.inr (Or.inl (by rw [hmake]))

theorem isWritten_or_isMade (h : isValidName p.name = true)
    (hl : (write d folder p).2.root.shell? l ≠ d.root.shell? l) :
    IsWritten d (write d folder p).2 folder p l ∨ IsMade d (write d folder p).2 folder l := by
  have hmade := Disk.made_makeAll d folder
  rcases write_cases d folder p with hsame | hmake | hwrite
  · rw [hsame] at hl
    exact absurd rfl hl
  · rw [hmake] at hl ⊢
    obtain ⟨hnone, hfolder, hq⟩ := hmade.change l hl
    exact Or.inr ⟨hnone, hfolder, hq⟩
  · by_cases hlater : (write d folder p).2.root.shell? l = (d.makeAll folder).2.root.shell? l
    · rw [hlater] at hl
      obtain ⟨hnone, hfolder, q, hq, hlocate⟩ := hmade.change l hl
      have hkept := Disk.kept_writeFile hwrite
      exact Or.inr ⟨hnone, hlater.trans hfolder, q, hq,
        Disk.locate_of_shell? hkept hlocate hfolder⟩
    · obtain ⟨hlocate, hfile, hfree⟩ := Disk.shell?_writeFile hwrite hlater
      refine Or.inl ⟨isFileOf_of_locate h hlocate, fun hbefore => ?_, hfile⟩
      -- a folder that was there before is there when the file is written
      by_cases hfirst : (d.makeAll folder).2.root.shell? l = d.root.shell? l
      · exact hfree (hfirst.trans hbefore)
      · rw [(hmade.change l hfirst).1] at hbefore
        cases hbefore

/-- To write a package does not change where the program works. -/
theorem work_write (d : Disk) (folder : Path) (p : Descriptor) :
    (write d folder p).2.work = d.work := by
  have hmade := (Disk.made_makeAll d folder).work_eq
  rcases write_cases d folder p with hsame | hmake | hwrite
  · rw [hsame]
  · rw [hmake, hmade]
  · rw [(Disk.kept_writeFile hwrite).work_eq, hmade]

theorem perform_remove_of_invalid (h : isValidName name = false) :
    (remove folder name).perform d =
      (.error (if Text.isBlankText name then .missingArgument "package name to remove"
        else .invalidPackageName name), ⟨d, []⟩) := by
  split_ifs with hblank
  · exact perform_remove_blank hblank
  · exact perform_remove_invalid (Bool.eq_false_iff.mpr hblank) h

/-- The ways to take a package out: the disk is left alone, or the file is removed. -/
theorem perform_remove_cases (d : Disk) (folder : Path) (name : String) :
    ((remove folder name).perform d).2.disk = d ∨ isValidName name = true ∧
      d.removeFile (pathOf folder name) = .ok ((remove folder name).perform d).2.disk := by
  cases hblank : Text.isBlankText name with
  | true => exact Or.inl (by rw [perform_remove_blank hblank])
  | false =>
    cases hvalid : isValidName name with
    | false => exact Or.inl (by rw [perform_remove_invalid hblank hvalid])
    | true =>
      rw [perform_remove_valid hblank hvalid]
      split_ifs
      · cases hremove : d.removeFile (pathOf folder name) with
        | ok d' => exact Or.inr ⟨rfl, rfl⟩
        | error why => exact Or.inl rfl
      · exact Or.inl rfl

theorem work_remove (d : Disk) (folder : Path) (name : String) :
    ((remove folder name).perform d).2.disk.work = d.work := by
  rcases perform_remove_cases d folder name with hsame | ⟨-, hremove⟩
  · rw [hsame]
  · obtain ⟨l, file, es, bytes, -, -, -, hdisk⟩ := Disk.removeFile_eq_ok hremove
    rw [hdisk, Disk.work_take]

theorem isRemoved (hl : ((remove folder name).perform d).2.disk.root.shell? l ≠ d.root.shell? l) :
    isValidName name = true ∧
      IsRemoved d ((remove folder name).perform d).2.disk folder name l := by
  rcases perform_remove_cases d folder name with hsame | ⟨hvalid, hremove⟩
  · rw [hsame] at hl
    exact absurd rfl hl
  · obtain ⟨hlocate, hfile, hnone⟩ := Disk.shell?_removeFile hremove hl
    exact ⟨hvalid, isFileOf_of_locate hvalid hlocate, hfile, hnone⟩

/-- Package names cannot leave the folder of the packages. The valid ones are known by their
characters; each has a file of its own whose parent is the folder. To write or to take out a package
changes its file only, wherever the path of the folder leads, and a name that is not valid is
refused on every disk in the same way. -/
theorem confined (folder : Path) :
    (∀ name, isValidName name = true ↔ name ≠ "" ∧ '/' ∉ name.toList ∧ '\\' ∉ name.toList ∧
      ¬ ['.', '.'] <:+: name.toList ∧ name ≠ ".") ∧
    (∀ name, isValidName name = true →
      (pathOf folder name).parent?.map Path.parts = some folder.parts ∧
        (pathOf folder name).fileName? = some (name ++ ".json") ∧
          ∀ other, isValidName other = true → name ≠ other →
            (pathOf folder name).parts ≠ (pathOf folder other).parts) ∧
    (∀ (d : Disk) (p : Descriptor),
      (isValidName p.name = false → write d folder p = (.error .invalidName, d)) ∧
        (write d folder p).2.work = d.work ∧
          ∀ l, (write d folder p).2.root.shell? l ≠ d.root.shell? l → isValidName p.name = true ∧
            (IsWritten d (write d folder p).2 folder p l ∨
              IsMade d (write d folder p).2 folder l)) ∧
    ∀ (d : Disk) (name : String),
      (isValidName name = false → (remove folder name).perform d =
        (.error (if Text.isBlankText name then .missingArgument "package name to remove"
          else .invalidPackageName name), ⟨d, []⟩)) ∧
        ((remove folder name).perform d).2.disk.work = d.work ∧
          ∀ l, ((remove folder name).perform d).2.disk.root.shell? l ≠ d.root.shell? l →
            isValidName name = true ∧
              IsRemoved d ((remove folder name).perform d).2.disk folder name l := by
  refine ⟨Package.isValidName_iff, fun name h => ?_,
    fun d p => ⟨write_of_invalid d folder, work_write d folder p, ?_⟩,
    fun d name => ⟨perform_remove_of_invalid, work_remove d folder name, fun l => isRemoved⟩⟩
  · exact ⟨Path.parent?_join (isPlain_fileName h), Path.fileName?_join (isPlain_fileName h),
      fun other hother hne hparts => hne (name_eq_of_parts_pathOf h hother hparts)⟩
  · intro l hl
    cases hvalid : isValidName p.name with
    | true => exact ⟨rfl, isWritten_or_isMade hvalid hl⟩
    | false =>
      rw [write_of_invalid d folder hvalid] at hl
      exact absurd rfl hl

/-- A program that works in a folder beside the packages folder. -/
def neighbor : Disk := ⟨.folder [("srv", .folder [])], ["srv"]⟩

/-- A button is written to its file in a folder that is new, and taken out of it again by another
path to this folder. -/
theorem confined_button :
    let d := (write neighbor ⟨"/site"⟩ ⟨"btn", .empty⟩).2
    (pathOf ⟨"/site"⟩ "btn").parent?.map Path.parts = some (Path.mk "/site").parts ∧
      IsMade neighbor d ⟨"/site"⟩ ["site"] ∧
        IsWritten neighbor d ⟨"/site"⟩ ⟨"btn", .empty⟩ ["site", "btn.json"] ∧
          IsRemoved d ((remove ⟨"../site"⟩ "btn").perform d).2.disk ⟨"../site"⟩ "btn"
            ["site", "btn.json"] ∧
            write d ⟨"/site"⟩ ⟨"../btn", .empty⟩ = (.error .invalidName, d) := by
  intro d
  obtain ⟨-, hpaths, hwrite, -⟩ := confined ⟨"/site"⟩
  obtain ⟨-, -, -, hremove⟩ := confined ⟨"../site"⟩
  have hsite : d.root.shell? ["site"] = some (.folder []) := by rfl
  have hfile : d.root.shell? ["site", "btn.json"] =
    some (.file (Descriptor.toJson ⟨"btn", .empty⟩).toUTF8) := by rfl
  have hgone : ((remove ⟨"../site"⟩ "btn").perform d).2.disk.root.shell? ["site", "btn.json"] =
    none := by rfl
  refine ⟨(hpaths "btn" (by decide)).1, ?_, ?_, ?_, (hwrite d ⟨"../btn", .empty⟩).1 (by decide)⟩
  · refine ((hwrite neighbor ⟨"btn", .empty⟩).2.2 ["site"] ?_).2.resolve_left fun h => ?_
    · exact fun h => by cases hsite.symm.trans h
    · cases hsite.symm.trans h.after
  · refine ((hwrite neighbor ⟨"btn", .empty⟩).2.2 ["site", "btn.json"] ?_).2.resolve_right
      fun h => ?_
    · exact fun h => by cases hfile.symm.trans h
    · cases hfile.symm.trans h.after
  · exact ((hremove d "btn").2.2 _ fun h => by cases hgone.symm.trans (h.trans hfile)).2

end StylePack.Store
