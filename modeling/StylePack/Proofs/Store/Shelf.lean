import Mathlib.Logic.Function.Basic
import StylePack.Proofs.Disk.Making
import StylePack.Proofs.Json.Readers
import StylePack.Proofs.Store.Stocked
import StylePack.Proofs.Store.Upkeep

/-! A packages folder as a finite map (`Shelf`). What is installed and removed is answered as the
map answers it, and leaves a folder that shows the map: one change keeps that (`Holds.step`), so a
run of changes does, from a folder on that is not there yet (`shows_of_vacant`). -/
namespace StylePack.Store
open Package (isValidName)
variable {d d' : Disk} {folder path : Path} {text name : String} {p : Descriptor}
  {m : OrderedMap String Styles}

/-- A change to a packages folder. -/
inductive Change
  /-- Puts in the package of a descriptor's text. -/
  | install (text : String)
  /-- Takes out the package of a name. -/
  | remove (name : String)

/-- How a change is answered, and the disk it leaves. -/
def Change.onDisk (folder : Path) (d : Disk) (c : Change) : Except Failure Path × Disk :=
  let act := match c with
    | install text => Store.install folder text
    | remove name => Store.remove folder name
  ((act.perform d).1, (act.perform d).2.disk)

/-- The packages by name, and whether any was ever put in. -/
structure Shelf where
  packages : String → Option Styles
  opened : Bool

namespace Shelf

def empty : Shelf := ⟨fun _ => none, false⟩

end Shelf

/-- How a shelf answers a change, and the shelf after it. -/
def Change.onShelf (folder : Path) (s : Shelf) : Change → Except Failure Path × Shelf
  | install text =>
    match Descriptor.validate text with
    | .ok p => (.ok (folder.join ⟨p.name ++ ".json"⟩),
        ⟨Function.update s.packages p.name (some p.styles), true⟩)
    | .error defect => (.error (.invalidDescriptor defect.message), s)
  | remove name =>
    if (s.packages name).isSome then
      (.ok (folder.join ⟨name ++ ".json"⟩),
        { s with packages := Function.update s.packages name none })
    else if Text.isBlankText name then (.error (.missingArgument "package name to remove"), s)
    else if !isValidName name then (.error (.invalidPackageName name), s)
    else (.error (.packageNotFound name), s)

/-- The answers to changes made one after another, and what they leave. -/
def answers {σ : Type} (step : σ → Change → Except Failure Path × σ) :
    σ → List Change → List (Except Failure Path) × σ
  | s, [] => ([], s)
  | s, c :: cs =>
    ((step s c).1 :: (answers step (step s c).2 cs).1, (answers step (step s c).2 cs).2)

/-- Nothing is at a path, and a folder can be made there (see `vacant_of_clear`). The empty path is
that of the working folder, which is there. -/
structure Vacant (d : Disk) (folder : Path) : Prop where
  absent : d.entry? folder = none
  named : folder.text ≠ ""
  made : (d.makeAll folder).1 = .ok ()
  /-- A path with `..` may lead to an old folder once the folders around it are there. -/
  empty : ".." ∈ Disk.pieces folder → (d.makeAll folder).2.readFolder folder = .ok []

/-- What is loaded from a folder and what is listed of it is what a shelf holds. -/
structure Shows (d : Disk) (folder : Path) (s : Shelf) : Prop where
  get?_load : ∀ name, (load d folder).get? name = (s.packages name).map fun styles =>
    ⟨name, styles, some (folder.join ⟨name ++ ".json"⟩)⟩
  installed_closed : s.opened = false → installed d folder = .ok none
  installed_opened : s.opened = true →
    ∃ ps, installed d folder = .ok (some ps) ∧ Listed s.packages ps

/-- A folder with the packages of a shelf, or none where the shelf was never opened. -/
inductive Holds (folder : Path) : Disk → Shelf → Prop
  | vacant {d : Disk} (h : Vacant d folder) : Holds folder d .empty
  | stocked {d : Disk} {m : OrderedMap String Styles} (h : Stocked d folder m)
      (hnames : ∀ name ∈ m.keys, Text.isBlankText name = false ∧ isValidName name = true) :
      Holds folder d ⟨m.get?, true⟩

/-- A path at which nothing is, is vacant where no file is in the way. -/
theorem vacant_of_clear (h : d.Clear folder) (habsent : d.entry? folder = none) :
    Vacant d folder where
  absent := habsent
  named := (Disk.route_eq_ok h.route_eq).2
  made := (Disk.makeAll_of_clear h).1
  empty hup := absurd hup h.down

/-- What is made at a vacant path is empty. -/
theorem Vacant.readFolder_eq (h : Vacant d folder) :
    (d.makeAll folder).2.readFolder folder = .ok [] := by
  by_cases hup : ".." ∈ Disk.pieces folder
  · exact h.empty hup
  · have habsent : d.isFolder folder = false := by rw [Disk.isFolder, h.absent]; rfl
    exact Disk.readFolder_of_makeAll habsent h.named hup h.made

theorem Vacant.stocked (h : Vacant d folder) : Stocked (d.makeAll folder).2 folder .empty where
  readFolder_eq := h.readFolder_eq
  fits := fun _ hname => absurd hname List.not_mem_nil

theorem Vacant.isFile_pathOf (h : Vacant d folder) (hname : isValidName name = true) :
    d.isFile (pathOf folder name) = false :=
  Disk.isFile_join_of_absent h.named h.absent (isPlain_fileName hname)

theorem Holds.shows {s : Shelf} (h : Holds folder d s) : Shows d folder s := by
  cases h with
  | vacant h =>
    refine ⟨fun name => ?_, fun _ => ?_, fun hopened => absurd hopened Bool.false_ne_true⟩
    · rw [load]
      cases hread : d.readFolder folder with
      | error r => rfl
      | ok es =>
        obtain ⟨l, hlocate, hl⟩ := Disk.readFolder_eq_ok.mp hread
        have habsent := h.absent
        rw [Disk.entry?_of_locate hlocate, hl] at habsent
        cases habsent
    · rw [installed, h.absent]
  | stocked h hnames =>
    exact ⟨h.get?_load, fun hclosed => absurd hclosed.symm Bool.false_ne_true,
      fun _ => ⟨_, h.installed_eq, listed _⟩⟩

/-- The names of the packages that a folder holds, and what is found under them. -/
theorem Holds.ready {s : Shelf} (h : Holds folder d s) :
    ∃ d' m, d.makeAll folder = (.ok (), d') ∧ Stocked d' folder m ∧ m.get? = s.packages ∧
      ∀ name ∈ m.keys, Text.isBlankText name = false ∧ isValidName name = true := by
  cases h with
  | vacant h => exact ⟨_, .empty, Prod.ext h.made rfl, h.stocked, rfl, fun _ hname => nomatch hname⟩
  | @stocked m h hnames =>
    exact ⟨d, m, Disk.makeAll_of_readFolder h.readFolder_eq, h, rfl, hnames⟩

theorem get?_insert_eq (m : OrderedMap String Styles) (name : String) (styles : Styles) :
    (m.insert name styles).get? = Function.update m.get? name (some styles) := by
  funext other
  rw [OrderedMap.get?_insert, Function.update_apply]

theorem get?_erase_eq (m : OrderedMap String Styles) (name : String) :
    (m.erase name).get? = Function.update m.get? name none := by
  funext other
  rw [OrderedMap.get?_erase, Function.update_apply]

theorem Holds.install {s : Shelf} (h : Holds folder d s) (hp : Descriptor.validate text = .ok p)
    (hfits : Disk.Accepts folder (fileName p.name)) :
    ∃ d', (Store.install folder text).perform d = (.ok (pathOf folder p.name), ⟨d', []⟩) ∧
      Holds folder d' ⟨Function.update s.packages p.name (some p.styles), true⟩ := by
  obtain ⟨d₁, m, hmade, hstocked, hget, hnames⟩ := h.ready
  have hname := Descriptor.name_of_validate hp
  obtain ⟨d₂, hwrite, hafter⟩ := hstocked.write hmade hname.2
    ⟨isPlain_fileName hname.2, hfits⟩
  refine ⟨d₂, perform_install hp hwrite, ?_⟩
  rw [← hget, ← get?_insert_eq]
  refine .stocked hafter fun name hmem => ?_
  rcases OrderedMap.mem_keys_insert.mp hmem with rfl | hmem
  · exact hname
  · exact hnames name hmem

theorem Holds.isFile_eq {s : Shelf} (h : Holds folder d s) (hvalid : isValidName name = true) :
    d.isFile (pathOf folder name) = (s.packages name).isSome := by
  cases h with
  | vacant h => exact h.isFile_pathOf hvalid
  | @stocked m h hnames =>
    rw [Bool.eq_iff_iff, h.isFile_iff hvalid]
    exact (m.contains_iff name).symm

theorem Holds.remove {s : Shelf} (h : Holds folder d s) (hsome : (s.packages name).isSome = true) :
    ∃ d' said, (Store.remove folder name).perform d = (.ok (pathOf folder name), ⟨d', said⟩) ∧
      Holds folder d' { s with packages := Function.update s.packages name none } := by
  cases h with
  | vacant h => exact absurd hsome Bool.false_ne_true
  | @stocked m h hnames =>
    have hmem := (m.contains_iff name).mp hsome
    obtain ⟨hblank, hvalid⟩ := hnames name hmem
    obtain ⟨d', hremove, hafter⟩ := h.removeFile hmem
    refine ⟨d', _, perform_remove hblank hvalid ((h.isFile_iff hvalid).mpr hmem) hremove, ?_⟩
    rw [← get?_erase_eq]
    exact .stocked hafter fun other hother =>
      hnames other ((List.filter_sublist.map Prod.fst).subset hother)

/-- A name under which nothing is held is refused, for the first reason that there is. -/
theorem Holds.remove_refused {s : Shelf} (h : Holds folder d s)
    (hnone : (s.packages name).isSome = false) :
    (Store.remove folder name).perform d = (.error (
      if Text.isBlankText name then .missingArgument "package name to remove"
      else if !isValidName name then .invalidPackageName name
      else .packageNotFound name), ⟨d, []⟩) := by
  cases hblank : Text.isBlankText name with
  | true => exact perform_remove_blank hblank
  | false =>
    cases hvalid : isValidName name with
    | false => exact perform_remove_invalid hblank hvalid
    | true => exact perform_remove_absent hblank hvalid (by rw [h.isFile_eq hvalid, hnone])

/-- A change is answered as the shelf answers it, and leaves a folder with what the shelf holds
then. -/
theorem Holds.step {s : Shelf} {c : Change} (h : Holds folder d s)
    (hfits : ∀ text p, c = .install text → Descriptor.validate text = .ok p →
      Disk.Accepts folder (fileName p.name)) :
    (c.onDisk folder d).1 = (c.onShelf folder s).1 ∧
      Holds folder (c.onDisk folder d).2 (c.onShelf folder s).2 := by
  cases c with
  | install text =>
    cases hp : Descriptor.validate text with
    | error defect =>
      simp only [Change.onDisk, Change.onShelf, perform_install_error hp, hp]
      exact ⟨trivial, h⟩
    | ok p =>
      obtain ⟨d', hperform, hafter⟩ := h.install hp (hfits text p rfl hp)
      simp only [Change.onDisk, Change.onShelf, hperform, hp]
      exact ⟨rfl, hafter⟩
  | remove name =>
    cases hsome : (s.packages name).isSome with
    | true =>
      obtain ⟨d', said, hperform, hafter⟩ := h.remove hsome
      simp only [Change.onDisk, Change.onShelf, hperform, hsome, if_true]
      exact ⟨rfl, hafter⟩
    | false =>
      simp only [Change.onDisk, Change.onShelf, h.remove_refused hsome, hsome, Bool.false_eq_true,
        if_false]
      split_ifs <;> exact ⟨rfl, h⟩

/-- All changes of a run are answered as the shelf answers them. -/
theorem Holds.run {s : Shelf} {cs : List Change} (h : Holds folder d s)
    (hfits : ∀ text p, .install text ∈ cs → Descriptor.validate text = .ok p →
      Disk.Accepts folder (fileName p.name)) :
    (answers (Change.onDisk folder) d cs).1 = (answers (Change.onShelf folder) s cs).1 ∧
      Holds folder (answers (Change.onDisk folder) d cs).2
        (answers (Change.onShelf folder) s cs).2 := by
  induction cs generalizing d s with
  | nil => exact ⟨rfl, h⟩
  | cons c cs ih =>
    obtain ⟨hanswer, hafter⟩ := h.step fun text p hc => hfits text p (hc ▸ List.mem_cons_self)
    obtain ⟨hanswers, hend⟩ := ih hafter fun text p hmem =>
      hfits text p (List.mem_cons_of_mem c hmem)
    exact ⟨by rw [answers, answers, hanswer, hanswers], hend⟩

/-- A folder that is not there yet is a finite map to all who install, remove, load and list. -/
theorem shows_of_vacant (hvacant : Vacant d folder) (cs : List Change)
    (hfits : ∀ text p, .install text ∈ cs → Descriptor.validate text = .ok p →
      Disk.Accepts folder (fileName p.name)) :
    (answers (Change.onDisk folder) d cs).1 = (answers (Change.onShelf folder) .empty cs).1 ∧
      Shows (answers (Change.onDisk folder) d cs).2 folder
        (answers (Change.onShelf folder) .empty cs).2 :=
  have h := (Holds.vacant hvacant).run hfits
  ⟨h.1, h.2.shows⟩

/-- A package is put in and taken out, and then there is none to take out. -/
theorem shows_of_vacant_button :
    Vacant ⟨.folder [("srv", .folder [])], ["srv"]⟩ ⟨"/site/packages"⟩ ∧
      (answers (Change.onDisk ⟨"/site/packages"⟩) ⟨.folder [("srv", .folder [])], ["srv"]⟩
        [.install "\x7b\"name\":\"btn\",\"styles\":\x7b\"color\":\"red\"\x7d\x7d", .remove "btn",
          .remove "btn"]).1 =
        [.ok ⟨"/site/packages/btn.json"⟩, .ok ⟨"/site/packages/btn.json"⟩,
          .error (.packageNotFound "btn")] := by
  have hvacant : Vacant ⟨.folder [("srv", .folder [])], ["srv"]⟩ ⟨"/site/packages"⟩ := by
    refine vacant_of_clear ⟨⟨_, rfl⟩, by decide, by decide, by decide, ⟨_, rfl⟩, fun l hl => ?_⟩ rfl
    have hnames : Disk.names (Disk.pieces ⟨"/site/packages"⟩) = ["site", "packages"] := by decide
    simp only [hnames, List.prefix_cons_iff, List.prefix_nil] at hl
    rcases hl with rfl | ⟨l, rfl, rfl | ⟨l, rfl, rfl⟩⟩ <;> rfl
  have hvalidate : Descriptor.validate
      "\x7b\"name\":\"btn\",\"styles\":\x7b\"color\":\"red\"\x7d\x7d" =
        .ok ⟨"btn", ⟨[("color", "red")], by decide⟩⟩ := by rfl
  refine ⟨hvacant, (shows_of_vacant hvacant _ ?_).1.trans ?_⟩
  · intro text p hmem hp
    simp only [List.mem_cons, Change.install.injEq, reduceCtorEq, List.not_mem_nil,
      or_false] at hmem
    rw [hmem, hvalidate] at hp
    cases hp
    exact ⟨by decide, _, rfl⟩
  · simp only [answers, Change.onShelf, hvalidate]
    decide

end StylePack.Store
