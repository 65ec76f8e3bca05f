import StylePack.Proofs.Json.Readers
import StylePack.Proofs.Store.Loaded
import StylePack.Proofs.Store.Upkeep

/-! Descriptors that are put in. The strict reader accepts what the lenient one reads, where the
name will do and no style would be left out; so the file that is written declares the package that
was accepted, and whoever loads the folder finds it (`accepted_iff`). -/
namespace StylePack.Store
open Package (isValidName)
variable {d d' : Disk} {folder path : Path} {text : String} {p : Descriptor} {s : Session}

theorem write_eq_ok (h : write d folder p = (.ok path, d')) : path = pathOf folder p.name ∧
    ∃ made : Disk, made.writeFile path p.toJson.toUTF8 = .ok d' := by
  unfold write at h
  split_ifs at h
  · cases h
  · split at h
    · cases h
    · rename_i made _
      split at h
      · rename_i hwrite
        cases h
        exact ⟨rfl, made, hwrite⟩
      · cases h

/-- What is put in is written to the file of its name. -/
theorem writeFile_of_install (hp : Descriptor.validate text = .ok p)
    (h : (install folder text).perform d = (.ok path, s)) : path = pathOf folder p.name ∧
      ∃ made : Disk, made.writeFile (pathOf folder p.name) p.toJson.toUTF8 = .ok s.disk := by
  cases hwrite : write d folder p with
  | mk result d' =>
    cases result with
    | error problem =>
      rw [perform_install_refused hp hwrite] at h
      cases h
    | ok file =>
      rw [perform_install hp hwrite] at h
      cases h
      obtain ⟨rfl, made, hmade⟩ := write_eq_ok hwrite
      exact ⟨rfl, made, hmade⟩

theorem declares_fileOf (name : String) (styles : Styles) :
    Declares (fileName name, fileOf name styles) ⟨name, styles⟩ := by
  refine ⟨_, rfl, ?_, Descriptor.ofJson?_toJson _⟩
  rw [toList_fileName]
  exact List.suffix_append _ _

/-- A text is accepted exactly if what is read of it has a name that will do and no style was left
out. What is accepted is then read from the file that it is put in. The table that is loaded from
the folder has its name, and under this name what was accepted, unless an entry that is listed later
declares the name as well. Only the empty path names no folder to load from. -/
theorem accepted_iff (text : String) (p : Descriptor) :
    (Descriptor.validate text = .ok p ↔ Descriptor.ofJson? text = some p ∧
      Text.isBlankText p.name = false ∧ isValidName p.name = true ∧
        ∀ members, Descriptor.stylesIn? text = some members → Descriptor.AllStrings members) ∧
    ∀ (folder path : Path) (d : Disk) (s : Session), Descriptor.validate text = .ok p →
      (install folder text).perform d = (.ok path, s) →
        ∃ e, s.disk.entry? path = some e ∧
          package? folder (fileName p.name) e = some (p.toPackage path) ∧
            (folder.text ≠ "" → ∃ before after,
              s.disk.readFolder folder = .ok (before ++ (fileName p.name, e) :: after) ∧
                (load s.disk folder).contains p.name = true ∧
                  ((∀ x ∈ after, ∀ q, Declares x q → q.name ≠ p.name) →
                    (load s.disk folder).get? p.name = some (p.toPackage path))) := by
  constructor
  · rw [Descriptor.validate_eq_ok, Descriptor.ofJson?_eq_some]
    constructor
    · rintro ⟨hname, hblank, hvalid, members, hmembers, hall, hstyles⟩
      refine ⟨⟨hname, members, hmembers, hstyles⟩, hblank, hvalid, fun others hothers => ?_⟩
      rw [hmembers] at hothers
      cases hothers
      exact hall
    · rintro ⟨⟨hname, members, hmembers, hstyles⟩, hblank, hvalid, hall⟩
      exact ⟨hname, hblank, hvalid, members, hmembers, hall members hmembers, hstyles⟩
  · intro folder path d s hp hinstall
    obtain ⟨rfl, made, hmade⟩ := writeFile_of_install hp hinstall
    refine ⟨fileOf p.name p.styles, Disk.entry?_of_writeFile hmade,
      package?_fileOf folder p.name p.styles, fun hfolder => ?_⟩
    have hsingle := (isPlain_fileName (Descriptor.name_of_validate hp).2).single
    obtain ⟨entries, hread, hlook⟩ := Disk.lookup_of_writeFile_join hmade hfolder hsingle
    obtain ⟨before, after, rfl⟩ := List.append_of_mem (OrderedMap.mem_of_lookup hlook)
    have hdeclares := declares_fileOf p.name p.styles
    have htable := holding_tableOf folder
      (before ++ (fileName p.name, fileOf p.name p.styles) :: after)
    refine ⟨before, after, hread, ?_, fun hafter => ?_⟩ <;> rw [load_of_readFolder hread]
    · exact (htable.contains_iff _).mpr
        ((htable.mem_names_iff _).mpr ⟨_, by simp, _, hdeclares, rfl⟩)
    · exact get?_tableOf_iff.mpr ⟨before, _, after, p, rfl, hdeclares, rfl, rfl, hafter⟩

/-- The text of a button's descriptor; the color that comes later takes the place of the first. -/
def buttonText : String :=
  "\x7b\"name\":\"btn\",\"styles\":\x7b\"color\":\"\",\"margin\":\"0\",\"color\":\"red\"\x7d\x7d"

/-- A packages folder with a card in it. -/
def cardFolder : Disk :=
  ⟨.folder [("site", .folder [("card.json", fileOf "card" .empty)])], []⟩

/-- A button is accepted, and loaded from the folder that it was put in beside the card. -/
theorem accepted_iff_button :
    Descriptor.ofJson? buttonText =
        some ⟨"btn", .ofList [("color", "red"), ("margin", "0")]⟩ ∧
      ∃ s, (install ⟨"/site"⟩ buttonText).perform cardFolder = (.ok ⟨"/site/btn.json"⟩, s) ∧
        (load s.disk ⟨"/site"⟩).get? "btn" = some
          ⟨"btn", .ofList [("color", "red"), ("margin", "0")], some ⟨"/site/btn.json"⟩⟩ := by
  have hvalidate : Descriptor.validate buttonText =
      .ok ⟨"btn", .ofList [("color", "red"), ("margin", "0")]⟩ := by rfl
  have hinstall : ((install ⟨"/site"⟩ buttonText).perform cardFolder).1 =
      .ok ⟨"/site/btn.json"⟩ := by rfl
  have hfiles : (((install ⟨"/site"⟩ buttonText).perform cardFolder).2.disk.readFolder
      ⟨"/site"⟩).toOption.map (List.map Prod.fst) = some ["card.json", "btn.json"] := by
    decide +kernel
  obtain ⟨haccepted, hloaded⟩ :=
    accepted_iff buttonText ⟨"btn", .ofList [("color", "red"), ("margin", "0")]⟩
  cases hperform : (install ⟨"/site"⟩ buttonText).perform cardFolder with
  | mk result s =>
    rw [hperform] at hinstall hfiles
    obtain rfl : result = .ok ⟨"/site/btn.json"⟩ := hinstall
    obtain ⟨e, -, -, hlisted⟩ := hloaded ⟨"/site"⟩ _ _ _ hvalidate hperform
    obtain ⟨before, after, hread, -, hload⟩ := hlisted (by decide)
    -- the button is listed last, so nothing is declared after it
    have hnames : before.map Prod.fst ++ "btn.json" :: after.map Prod.fst =
        ["card.json", "btn.json"] := by
      rw [hread] at hfiles
      simpa [Except.toOption, fileName, ending] using hfiles
    obtain rfl : after = [] := by
      cases before with
      | nil => simp at hnames
      | cons x before =>
        have hlength := congrArg List.length hnames
        simp only [List.length_append, List.length_map, List.length_cons,
          List.length_nil] at hlength
        exact List.length_eq_zero_iff.mp (by omega)
    exact ⟨(haccepted.mp hvalidate).1, s, rfl, hload fun x hx => absurd hx List.not_mem_nil⟩

end StylePack.Store
