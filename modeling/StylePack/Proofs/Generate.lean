import StylePack.Generate
import StylePack.Proofs.Store.Shelf
import StylePack.Proofs.Transform.Alone

/-! Generated packages can be used as they are. Every stylesheet is read (`runOn_addFiles`), every
package is written (`runOn_writePackages`), and since a package is named by a class, it is loaded as
it was made and used by its name (`generate_usable`). -/
namespace StylePack.Generate
open Store ClassName Css
variable {d d' : Disk} {out : Path} {m : OrderedMap String Styles} {p : Descriptor} {name : String}
  {packages : OrderedMap String Descriptor}

/-- The file of a stylesheet, with its text. -/
structure Source where
  path : Path
  text : String
  deriving DecidableEq

variable {source : Source} {sources : List Source}

/-- The files are stylesheets with these texts. -/
def Readable (d : Disk) (sources : List Source) : Prop :=
  ∀ source ∈ sources, isStylesheet source.path = true ∧ d.readText source.path = .ok source.text

/-- The packages of one more stylesheet, put to those of the stylesheets before it. -/
def addSource (packages : OrderedMap String Descriptor) (source : Source) :
    OrderedMap String Descriptor :=
  packages.insertAll ((extract (Sheet.parse source.text)).map fun p => (p.name, p))

/-- The packages of some stylesheets. -/
def merged (sources : List Source) : OrderedMap String Descriptor :=
  sources.foldl addSource .empty

theorem entry?_of_readText {path : Path} {text : String} (h : d.readText path = .ok text) :
    ∃ bytes, d.entry? path = some (.file bytes) := by
  rw [Disk.readText, bind_eq_ok] at h
  obtain ⟨l, hlocate, hl⟩ := h
  rw [Disk.entry?_of_locate hlocate]
  split at hl
  · exact ⟨_, ‹_›⟩
  · cases hl
  · cases hl

theorem collect_eq (h : Readable d sources) :
    collect d (sources.map Source.path) = sources.map Source.path := by
  induction sources with
  | nil => rfl
  | cons source sources ih =>
    obtain ⟨hsheet, htext⟩ := h source List.mem_cons_self
    obtain ⟨bytes, hbytes⟩ := entry?_of_readText htext
    have hrest := ih fun s hs => h s (List.mem_cons_of_mem source hs)
    rw [collect] at hrest
    rw [collect, List.map_cons, List.flatMap_cons, hrest, hbytes, Option.map_some,
      Option.getD_some, stylesheets, if_pos hsheet]
    rfl

theorem runOn_addFile (debug : Bool) (packages : OrderedMap String Descriptor) {s : Session}
    (h : s.disk.readText source.path = .ok source.text) :
    ∃ said, Action.runOn (addFile debug packages source.path) s =
      (.ok (addSource packages source), ⟨s.disk, said⟩) := by
  refine ⟨s.said ++ Console.debug debug (source.path.text ++ ": " ++
    toString (extract (Sheet.parse source.text)).length ++ " packages"), ?_⟩
  rw [addFile, Action.runOn_bind_ok (Action.runOn_disk s), h,
    Action.runOn_bind_ok (Action.runOn_answer_ok _ _ s),
    Action.runOn_bind_ok (Action.runOn_sayAll _ s)]
  rfl

/-- All stylesheets are read. -/
theorem runOn_addFiles (debug : Bool) (packages : OrderedMap String Descriptor) {s : Session}
    (h : Readable s.disk sources) :
    ∃ said, Action.runOn ((sources.map Source.path).foldlM (addFile debug) packages) s =
      (.ok (sources.foldl addSource packages), ⟨s.disk, said⟩) := by
  induction sources generalizing packages s with
  | nil => exact ⟨s.said, rfl⟩
  | cons source sources ih =>
    obtain ⟨said, hfirst⟩ := runOn_addFile debug packages (h source List.mem_cons_self).2
    rw [List.map_cons, List.foldlM_cons, Action.runOn_bind_ok hfirst]
    exact ih (addSource packages source) fun s hs => h s (List.mem_cons_of_mem source hs)

/-- A package of a class can be written where a folder is or can be made. -/
theorem runOn_writePackage {s : Session} (hmade : s.disk.makeAll out = (.ok (), d))
    (h : Stocked d out m) (hclass : IsClass p.name) (hfits : Disk.Accepts out (fileName p.name)) :
    ∃ d' said, Action.runOn (writePackage out p) s = (.ok (pathOf out p.name), ⟨d', said⟩) ∧
      Stocked d' out (m.insert p.name p.styles) := by
  obtain ⟨d', hwrite, hafter⟩ :=
    h.write hmade hclass.isValidName ⟨isPlain_fileName hclass.isValidName, hfits⟩
  refine ⟨d', s.said ++ [.status ("Writing " ++ p.name)], ?_, hafter⟩
  rw [writePackage, Action.runOn_bind_ok (Action.runOn_say _ s)]
  exact Action.runOn_attempt_ok _ hwrite

theorem runOn_writePackages {ps : List Descriptor} {s : Session} (h : Stocked s.disk out m)
    (hps : ∀ p ∈ ps, IsClass p.name ∧ Disk.Accepts out (fileName p.name)) :
    ∃ d' said, Action.runOn (ps.mapM (writePackage out)) s =
        (.ok (ps.map fun p => pathOf out p.name), ⟨d', said⟩) ∧
      Stocked d' out (m.insertAll (ps.map fun p => (p.name, p.styles))) := by
  induction ps generalizing m s with
  | nil => exact ⟨s.disk, s.said, rfl, h⟩
  | cons p ps ih =>
    obtain ⟨hclass, hfits⟩ := hps p List.mem_cons_self
    obtain ⟨d₁, said₁, hfirst, hstocked⟩ :=
      runOn_writePackage (Disk.makeAll_of_readFolder h.readFolder_eq) h hclass hfits
    obtain ⟨d₂, said₂, hrest, hafter⟩ :=
      ih (s := ⟨d₁, said₁⟩) hstocked fun q hq => hps q (List.mem_cons_of_mem p hq)
    refine ⟨d₂, said₂, ?_, hafter⟩
    rw [List.mapM_cons, Action.runOn_bind_ok hfirst, Action.runOn_bind_ok hrest]
    rfl

/-- Packages by name, where the names are classes. -/
def Named (packages : OrderedMap String Descriptor) : Prop :=
  ∀ name p, packages.get? name = some p → p.name = name ∧ IsClass name

theorem Named.insertAll {ps : List Descriptor} (h : Named packages)
    (hps : ∀ p ∈ ps, IsClass p.name) :
    Named (packages.insertAll (ps.map fun p => (p.name, p))) := by
  induction ps generalizing packages with
  | nil => exact h
  | cons q ps ih =>
    refine ih (fun name p hp => ?_) fun p hp => hps p (List.mem_cons_of_mem q hp)
    rw [OrderedMap.get?_insert] at hp
    split_ifs at hp with hname
    · cases hp
      exact ⟨hname.symm, hname ▸ hps q List.mem_cons_self⟩
    · exact h name p hp

theorem named_merged (sources : List Source) : Named (merged sources) := by
  have hall : ∀ {packages : OrderedMap String Descriptor}, Named packages →
      Named (sources.foldl addSource packages) := by
    induction sources with
    | nil => exact fun h => h
    | cons source sources ih =>
      exact fun h => ih (h.insertAll fun p hp => isClass_of_mem_extract hp)
  exact hall fun name p hp => nomatch hp

theorem Named.entries_eq (h : Named packages) :
    packages.values.map (fun p => (p.name, p.styles)) =
      packages.entries.map fun e => (e.1, e.2.styles) := by
  rw [OrderedMap.values, List.map_map]
  refine List.map_congr_left fun e he => ?_
  have hname := (h e.1 e.2 (OrderedMap.mem_entries_iff.mp he)).1
  exact Prod.ext hname rfl

/-- All packages are written to a folder that is not there yet. -/
theorem runOn_generated {s : Session} (hvacant : Vacant s.disk out) (h : Named packages)
    (hfits : ∀ name ∈ packages.keys, Disk.Accepts out (fileName name))
    (hne : packages.isEmpty = false) :
    ∃ d' said, Action.runOn (packages.values.mapM (writePackage out)) s =
        (.ok (packages.keys.map (pathOf out)), ⟨d', said⟩) ∧
      Stocked d' out (.ofList (packages.values.map fun p => (p.name, p.styles))) := by
  have hclass : ∀ p ∈ packages.values, IsClass p.name ∧ Disk.Accepts out (fileName p.name) := by
    intro p hp
    obtain ⟨e, he, rfl⟩ := List.mem_map.mp hp
    obtain ⟨hname, hclass⟩ := h e.1 e.2 (OrderedMap.mem_entries_iff.mp he)
    rw [hname]
    exact ⟨hclass, hfits e.1 (List.mem_map_of_mem he)⟩
  have hpaths : packages.values.map (fun p => pathOf out p.name) =
      packages.keys.map (pathOf out) := by
    have hkeys := congrArg (List.map fun e => pathOf out e.1) h.entries_eq
    simpa [OrderedMap.keys, Function.comp_def] using hkeys
  rw [← hpaths]
  cases hvalues : packages.values with
  | nil =>
    have hnil : packages.entries = [] := List.map_eq_nil_iff.mp hvalues
    rw [OrderedMap.isEmpty, hnil] at hne
    cases hne
  | cons p ps =>
    rw [hvalues] at hclass
    obtain ⟨hp, hpfits⟩ := hclass p List.mem_cons_self
    have hmade : s.disk.makeAll out = (.ok (), (s.disk.makeAll out).2) := Prod.ext hvacant.made rfl
    obtain ⟨d₁, said₁, hfirst, hstocked⟩ := runOn_writePackage hmade hvacant.stocked hp hpfits
    obtain ⟨d₂, said₂, hrest, hafter⟩ := runOn_writePackages (s := ⟨d₁, said₁⟩) hstocked
      fun q hq => hclass q (List.mem_cons_of_mem p hq)
    refine ⟨d₂, said₂, ?_, hafter⟩
    rw [List.mapM_cons, Action.runOn_bind_ok hfirst, Action.runOn_bind_ok hrest]
    rfl

theorem perform_generate (hread : Readable d sources) (hvacant : Vacant d out)
    (hfits : ∀ name ∈ (merged sources).keys, Disk.Accepts out (fileName name))
    (hne : (merged sources).isEmpty = false) (debug : Bool) :
    ∃ d' said, (generate (sources.map Source.path) out debug).perform d =
        (.ok ((merged sources).keys.map (pathOf out)), ⟨d', said⟩) ∧
      Stocked d' out (.ofList ((merged sources).values.map fun p => (p.name, p.styles))) := by
  obtain ⟨said₁, hfiles⟩ := runOn_addFiles debug .empty (s := ⟨d, []⟩) hread
  obtain ⟨d', said₂, hwritten, hstocked⟩ :=
    runOn_generated (s := ⟨d, said₁⟩) hvacant (named_merged sources) hfits hne
  have hmerged : Action.runOn ((sources.map Source.path).foldlM (addFile debug) .empty) ⟨d, []⟩ =
      (.ok (merged sources), ⟨d, said₁⟩) := hfiles
  have hsome : (sources.map Source.path).isEmpty = false := by
    cases sources with
    | nil => exact absurd hne.symm Bool.false_ne_true
    | cons source sources => rfl
  refine ⟨d', said₂ ++ [.finish ("Generated " ++
    toString ((merged sources).keys.map (pathOf out)).length ++ " packages from " ++
    toString (sources.map Source.path).length ++ " files into " ++ out.text)], ?_, hstocked⟩
  rw [generate, Action.perform_eq, Action.runOn_bind_ok (Action.runOn_disk _)]
  simp only [collect_eq hread, hsome, Bool.false_eq_true, if_false]
  rw [Action.runOn_bind_ok hmerged, if_neg (by rw [hne]; exact Bool.false_ne_true),
    Action.runOn_bind_ok hwritten, Action.runOn_bind_ok (Action.runOn_say _ _)]
  rfl

/-- Generated packages are loaded as they were made, and used by the names of their classes. -/
theorem generate_usable (hread : Readable d sources) (hvacant : Vacant d out)
    (hfits : ∀ name ∈ (merged sources).keys, Disk.Accepts out (fileName name))
    (hne : (merged sources).isEmpty = false) (debug : Bool) :
    ∃ s, (generate (sources.map Source.path) out debug).perform d =
        (.ok ((merged sources).keys.map (pathOf out)), s) ∧
      (∀ name, (load s.disk out).get? name = ((merged sources).get? name).map fun p =>
        ⟨name, p.styles, some (pathOf out name)⟩) ∧
      ∀ name p, (merged sources).get? name = some p →
        (transform (load s.disk out)
            (Sheet.parse (".x \x7b @use " ++ name ++ "; \x7d"))).1.contents =
          [.node (.rule ".x") (p.styles.entries.map fun e =>
            Tree.leaf (.declaration ⟨e.1, e.2, false⟩))] ∧
        (transform (load s.disk out)
            (Sheet.parse (".x \x7b @use " ++ name ++ "; \x7d"))).2.diagnostics = [] := by
  have hnamed := named_merged sources
  obtain ⟨d', said, hperform, hstocked⟩ := perform_generate hread hvacant hfits hne debug
  have hload : ∀ name, (load d' out).get? name = ((merged sources).get? name).map fun p =>
      ⟨name, p.styles, some (pathOf out name)⟩ := by
    intro name
    have hnodup :
        (((merged sources).entries.map fun e => (e.1, e.2.styles)).map Prod.fst).Nodup := by
      simpa [Function.comp_def] using (merged sources).nodup
    have hlookup := OrderedMap.lookup_map (g := fun _ p => Descriptor.styles p)
      Function.injective_id name (merged sources).entries
    rw [hstocked.get?_load, hnamed.entries_eq, OrderedMap.get?_ofList hnodup]
    exact (congrArg (Option.map _) hlookup).trans (Option.map_map ..)
  refine ⟨⟨d', said⟩, hperform, hload, fun name p hp => ?_⟩
  have hused := transform_usingText (P := load d' out) (hnamed name p hp).2 (by rw [hload, hp]; rfl)
  exact hused

/-- Two stylesheets with a class in common, of which one is named by its way from the root. -/
def twoSheets : List Source :=
  [⟨⟨"/css/a.css"⟩, ".b,.c\x7bcolor:red\x7d"⟩, ⟨⟨"b.css"⟩, ".b\x7btop:0\x7d"⟩]

/-- The disk with the two stylesheets, in the folder that the program works in. -/
def sheetDisk : Disk :=
  ⟨.folder [("css", .folder [("a.css", .file ".b,.c\x7bcolor:red\x7d".toUTF8),
    ("b.css", .file ".b\x7btop:0\x7d".toUTF8)])], ["css"]⟩

/-- What the second stylesheet says of their class replaces what the first one says. -/
theorem generate_usable_twice : Readable sheetDisk twoSheets ∧ Vacant sheetDisk ⟨"/pkg/out"⟩ ∧
    ∃ s, (generate (twoSheets.map Source.path) ⟨"/pkg/out"⟩ false).perform sheetDisk =
        (.ok [⟨"/pkg/out/b.json"⟩, ⟨"/pkg/out/c.json"⟩], s) ∧
      (transform (load s.disk ⟨"/pkg/out"⟩) (Sheet.parse ".x \x7b @use b; \x7d")).1.contents =
        [.node (.rule ".x") [Tree.leaf (.declaration ⟨"top", "0", false⟩)]] := by
  have hread : Readable sheetDisk twoSheets := by
    intro source hsource
    simp only [twoSheets, List.mem_cons, List.not_mem_nil, or_false] at hsource
    rcases hsource with rfl | rfl
    · exact ⟨by decide +kernel, by rfl⟩
    · exact ⟨by decide +kernel, by rfl⟩
  have hmerged : (merged twoSheets).entries =
      [("b", ⟨"b", ⟨[("top", "0")], by decide⟩⟩),
        ("c", ⟨"c", ⟨[("color", "red")], by decide⟩⟩)] := by
    decide +kernel
  have hfits : ∀ name ∈ (merged twoSheets).keys, Disk.Accepts ⟨"/pkg/out"⟩ (fileName name) := by
    intro name hname
    rw [OrderedMap.keys, hmerged] at hname
    simp only [List.map_cons, List.map_nil, List.mem_cons, List.not_mem_nil, or_false] at hname
    rcases hname with rfl | rfl
    · exact ⟨by decide, _, rfl⟩
    · exact ⟨by decide, _, rfl⟩
  have hvacant : Vacant sheetDisk ⟨"/pkg/out"⟩ :=
    ⟨by rfl, by decide, by rfl, fun hup => absurd hup (by decide)⟩
  obtain ⟨s, hperform, -, hused⟩ :=
    generate_usable hread hvacant hfits (by rw [OrderedMap.isEmpty, hmerged]; rfl) false
  refine ⟨hread, hvacant, s, hperform.trans ?_, ?_⟩
  · rw [OrderedMap.keys, hmerged]
    rfl
  · have hget : (merged twoSheets).get? "b" = some ⟨"b", ⟨[("top", "0")], by decide⟩⟩ := by
      rw [OrderedMap.get?, hmerged]
      rfl
    have htext : ".x \x7b @use " ++ "b" ++ "; \x7d" = ".x \x7b @use b; \x7d" := by decide
    have huse := (hused "b" _ hget).1
    rwa [htext] at huse

end StylePack.Generate
