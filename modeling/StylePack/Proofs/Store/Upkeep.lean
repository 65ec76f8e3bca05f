import StylePack.Proofs.Session
import StylePack.Store.Upkeep

/-! How putting in a package and taking one out end, by the reasons for which they are refused. -/
namespace StylePack.Store
open Package (isValidName)
variable {d d' : Disk} {folder path : Path} {text name : String} {p : Descriptor}

theorem perform_install_error {defect : Descriptor.Defect}
    (h : Descriptor.validate text = .error defect) :
    (install folder text).perform d = (.error (.invalidDescriptor defect.message), ⟨d, []⟩) := by
  rw [install, h]
  rfl

theorem perform_install (h : Descriptor.validate text = .ok p)
    (hwrite : write d folder p = (.ok path, d')) :
    (install folder text).perform d = (.ok path, ⟨d', []⟩) := by
  rw [install, h]
  exact Action.runOn_attempt_ok _ hwrite

theorem perform_install_refused {problem : Problem} (h : Descriptor.validate text = .ok p)
    (hwrite : write d folder p = (.error problem, d')) :
    (install folder text).perform d = (.error (.disk problem.message), ⟨d', []⟩) := by
  rw [install, h]
  exact Action.runOn_attempt_error _ hwrite

theorem perform_remove_blank (h : Text.isBlankText name = true) :
    (remove folder name).perform d =
      (.error (.missingArgument "package name to remove"), ⟨d, []⟩) := by
  rw [remove, if_pos h]
  rfl

theorem perform_remove_invalid (hblank : Text.isBlankText name = false)
    (h : isValidName name = false) :
    (remove folder name).perform d = (.error (.invalidPackageName name), ⟨d, []⟩) := by
  rw [remove, hblank, h]
  rfl

/-- How it ends to take out a package with a valid name. -/
theorem perform_remove_valid (hblank : Text.isBlankText name = false)
    (hvalid : isValidName name = true) :
    (remove folder name).perform d = if d.isFile (pathOf folder name) then
        match d.removeFile (pathOf folder name) with
        | .ok d' => (.ok (pathOf folder name),
          ⟨d', [.log .success ("Removed " ++ (pathOf folder name).text)]⟩)
        | .error why => (.error (.disk why.message), ⟨d, []⟩)
      else (.error (.packageNotFound name), ⟨d, []⟩) := by
  rw [remove, hblank, hvalid, Action.perform_eq]
  simp only [Bool.false_eq_true, Bool.not_true, if_false]
  rw [Action.runOn_bind_ok (Action.runOn_disk _)]
  cases d.isFile (pathOf folder name) with
  | false => rfl
  | true =>
    simp only [Bool.not_true, Bool.false_eq_true, if_false, if_true]
    cases hremove : d.removeFile (pathOf folder name) with
    | ok d' =>
      rw [Action.runOn_bind_ok (Action.runOn_attempt_ok _ (by rw [hremove]))]
      rfl
    | error why => rw [Action.runOn_bind, Action.runOn_attempt_error _ (by rw [hremove])]

theorem perform_remove_absent (hblank : Text.isBlankText name = false)
    (hvalid : isValidName name = true) (h : d.isFile (pathOf folder name) = false) :
    (remove folder name).perform d = (.error (.packageNotFound name), ⟨d, []⟩) := by
  rw [perform_remove_valid hblank hvalid, h]
  rfl

theorem perform_remove (hblank : Text.isBlankText name = false)
    (hvalid : isValidName name = true) (h : d.isFile (pathOf folder name) = true)
    (hremove : d.removeFile (pathOf folder name) = .ok d') :
    (remove folder name).perform d = (.ok (pathOf folder name),
      ⟨d', [.log .success ("Removed " ++ (pathOf folder name).text)]⟩) := by
  rw [perform_remove_valid hblank hvalid, if_pos h, hremove]

end StylePack.Store
