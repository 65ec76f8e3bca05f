import StylePack.Proofs.OrderedMap.Collapse
import StylePack.Proofs.Store.Stocked

/-! What is loaded from a folder, whatever it holds. Most entries may be something else than the
file of a package (`Declares`). A table has each declared name once, with what the last file says
that declares it (`get?_tableOf_iff`). So the order in which the entries are listed does not matter
where no two files declare one name (`load_declared`). -/
namespace StylePack

theorem PackageTable.length_keys (t : PackageTable) : t.packages.keys.length = t.size :=
  List.length_map _

/-- Two tables hold the same packages, in whatever order they came. -/
structure PackageTable.Same (t u : PackageTable) : Prop where
  get?_eq : ∀ name, t.get? name = u.get? name
  contains_eq : ∀ name, t.contains name = u.contains name
  names_eq : t.names = u.names
  sorted_eq : t.sorted = u.sorted
  size_eq : t.size = u.size

/-- A table is known by what is found in it. -/
theorem PackageTable.same_of_get? {t u : PackageTable} (h : ∀ name, t.get? name = u.get? name) :
    t.Same u := by
  have hcontains : ∀ name, t.contains name = u.contains name := fun name => by
    rw [contains_eq, contains_eq, h]
  have hkeys : t.packages.keys.Perm u.packages.keys := by
    rw [List.perm_ext_iff_of_nodup t.packages.nodup_keys u.packages.nodup_keys]
    intro name
    rw [← OrderedMap.contains_iff, ← OrderedMap.contains_iff]
    exact Bool.eq_iff_iff.mp (hcontains name)
  have hnames : t.names = u.names := Text.mergeSort_eq_of_perm hkeys
  refine ⟨h, hcontains, hnames, ?_, ?_⟩
  · rw [sorted, sorted, hnames]
    exact List.filterMap_congr fun name _ => h name
  · rw [← length_keys, ← length_keys, hkeys.length_eq]

namespace Store
variable {d : Disk} {folder : Path} {entries others : List (String × Entry)}
  {x : String × Entry} {name : String} {package : Package}

/-- An entry of a folder declares a package: it is a file with a name that ends in `.json`, and its
bytes are those of a text that is read as a descriptor. -/
def Declares (x : String × Entry) (p : Descriptor) : Prop :=
  ∃ text : String, x.2 = .file text.toUTF8 ∧ ending <:+ x.1.toList ∧
    Descriptor.ofJson? text = some p

/-- No two files of a folder declare packages of one name. -/
def Distinct (entries : List (String × Entry)) : Prop :=
  entries.Pairwise fun x y => ∀ p q, Declares x p → Declares y q → p.name ≠ q.name

theorem text?_eq_some_iff {e : Entry} {text : String} :
    e.text? = some text ↔ e = .file text.toUTF8 := by
  cases e with
  | folder es => simp [Entry.text?]
  | file bytes =>
    rw [Entry.text?, String.fromUTF8?, Entry.file.injEq]
    split_ifs with hvalid
    · rw [Option.some.injEq]
      constructor
      · rintro rfl
        rfl
      · rintro rfl
        rfl
    · constructor
      · intro h
        cases h
      · rintro rfl
        exact absurd text.isValidUTF8 hvalid

theorem exists_stem?_iff {file : String} :
    (∃ stem, stem? file = some stem) ↔ ending <:+ file.toList := by
  rw [stem?, ← List.isSuffixOf_iff_suffix]
  split_ifs with h <;> simp [h]

/-- The package of an entry is the one that it declares. -/
theorem package?_eq_some_iff : package? folder x.1 x.2 = some package ↔
    ∃ p, Declares x p ∧ p.toPackage (folder.join ⟨x.1⟩) = package := by
  simp only [package?, Option.bind_eq_bind, Option.bind_eq_some_iff, pure, Option.some.injEq,
    text?_eq_some_iff, Declares, ← exists_stem?_iff]
  constructor
  · rintro ⟨stem, hstem, text, htext, p, hp, rfl⟩
    exact ⟨p, ⟨text, htext, ⟨stem, hstem⟩, hp⟩, rfl⟩
  · rintro ⟨p, ⟨text, htext, ⟨stem, hstem⟩, hp⟩, rfl⟩
    exact ⟨stem, hstem, text, htext, p, hp, rfl⟩

theorem package?_eq_none_iff : package? folder x.1 x.2 = none ↔ ∀ p, ¬ Declares x p := by
  rw [Option.eq_none_iff_forall_ne_some]
  simp only [ne_eq, package?_eq_some_iff]
  constructor
  · exact fun h p hp => h _ ⟨p, hp, rfl⟩
  · rintro h _ ⟨p, hp, -⟩
    exact h p hp

theorem isSome_package?_iff : (package? folder x.1 x.2).isSome = true ↔ ∃ p, Declares x p := by
  rw [Option.isSome_iff_ne_none, ne_eq, package?_eq_none_iff]
  simp

instance (x : String × Entry) : Decidable (∃ p, Declares x p) :=
  decidable_of_iff ((package? default x.1 x.2).isSome = true) isSome_package?_iff

theorem mem_packagesIn_iff : package ∈ packagesIn folder entries ↔
    ∃ x ∈ entries, ∃ p, Declares x p ∧ p.toPackage (folder.join ⟨x.1⟩) = package := by
  simp only [packagesIn, List.mem_filterMap, package?_eq_some_iff]

theorem distinct_iff (folder : Path) :
    Distinct entries ↔ ((packagesIn folder entries).map Package.name).Nodup := by
  rw [List.Nodup, List.pairwise_map, packagesIn, List.pairwise_filterMap, Distinct]
  simp only [package?_eq_some_iff]
  refine List.Pairwise.iff fun {x y} => ?_
  constructor
  · rintro h _ ⟨p, hp, rfl⟩ _ ⟨q, hq, rfl⟩
    exact h p q hp hq
  · exact fun h p q hp hq => h _ ⟨p, hp, rfl⟩ _ ⟨q, hq, rfl⟩

/-- The package of an entry, if it has the name. -/
def packageNamed? (folder : Path) (name : String) (x : String × Entry) : Option Package :=
  (package? folder x.1 x.2).filter (·.name = name)

theorem packageNamed?_eq_some_iff : packageNamed? folder name x = some package ↔
    ∃ p, Declares x p ∧ p.name = name ∧ p.toPackage (folder.join ⟨x.1⟩) = package := by
  rw [packageNamed?, Option.filter_eq_some_iff, package?_eq_some_iff, decide_eq_true_iff]
  constructor
  · rintro ⟨⟨p, hp, rfl⟩, hname⟩
    exact ⟨p, hp, hname, rfl⟩
  · rintro ⟨p, hp, hname, rfl⟩
    exact ⟨⟨p, hp, rfl⟩, hname⟩

theorem packageNamed?_eq_none_iff :
    packageNamed? folder name x = none ↔ ∀ p, Declares x p → p.name ≠ name := by
  rw [Option.eq_none_iff_forall_ne_some]
  simp only [ne_eq, packageNamed?_eq_some_iff]
  constructor
  · exact fun h p hp hname => h _ ⟨p, hp, hname, rfl⟩
  · rintro h _ ⟨p, hp, hname, -⟩
    exact h p hp hname

/-- The entries are searched from the last one on. -/
theorem get?_tableOf (folder : Path) (entries : List (String × Entry)) (name : String) :
    (tableOf folder entries).get? name = entries.reverse.findSome? (packageNamed? folder name) := by
  have hfilter : (packagesIn folder entries).filter (·.name = name) =
      entries.filterMap (packageNamed? folder name) := List.filter_filterMap
  rw [PackageTable.get?, packages_tableOf, OrderedMap.get?_ofList_eq, OrderedMap.lastPair,
    List.filter_map, List.getLast?_map, Option.map_map, ← List.getLast?_filterMap, ← hfilter]
  exact Option.map_id' ..

/-- What is found under a name is what the last file says that declares it. -/
theorem get?_tableOf_iff : (tableOf folder entries).get? name = some package ↔
    ∃ before x after p, entries = before ++ x :: after ∧ Declares x p ∧ p.name = name ∧
      p.toPackage (folder.join ⟨x.1⟩) = package ∧
        ∀ y ∈ after, ∀ q, Declares y q → q.name ≠ name := by
  rw [get?_tableOf, List.findSome?_eq_some_iff]
  simp only [packageNamed?_eq_some_iff, packageNamed?_eq_none_iff]
  constructor
  · rintro ⟨after, x, before, hentries, ⟨p, hp⟩, hafter⟩
    refine ⟨before.reverse, x, after.reverse, p, ?_, hp.1, hp.2.1, hp.2.2, fun y hy => ?_⟩
    · simpa using congrArg List.reverse hentries
    · exact hafter y (List.mem_reverse.mp hy)
  · rintro ⟨before, x, after, p, rfl, hp, hname, hpackage, hafter⟩
    exact ⟨after.reverse, x, before.reverse, by simp, ⟨p, hp, hname, hpackage⟩,
      fun y hy => hafter y (List.mem_reverse.mp hy)⟩

/-- A table with the packages in the entries of a folder. Each name that a file declares is in it
once, and no other one; under a name stands the package of the last file that declares it. -/
structure Holding (folder : Path) (entries : List (String × Entry)) (t : PackageTable) : Prop where
  mem_names_iff : ∀ name, name ∈ t.names ↔ ∃ x ∈ entries, ∃ p, Declares x p ∧ p.name = name
  nodup_names : t.names.Nodup
  size_eq : t.size = t.names.length
  contains_iff : ∀ name, t.contains name = true ↔ name ∈ t.names
  get?_eq_some_iff : ∀ name package, t.get? name = some package ↔
    ∃ before x after p, entries = before ++ x :: after ∧ Declares x p ∧ p.name = name ∧
      p.toPackage (folder.join ⟨x.1⟩) = package ∧
        ∀ y ∈ after, ∀ q, Declares y q → q.name ≠ name

theorem holding_tableOf (folder : Path) (entries : List (String × Entry)) :
    Holding folder entries (tableOf folder entries) := by
  have hperm : (tableOf folder entries).names.Perm (tableOf folder entries).packages.keys :=
    List.mergeSort_perm _ _
  refine ⟨fun name => ?_, ?_, ?_, fun name => ?_, fun name package => get?_tableOf_iff⟩
  · rw [hperm.mem_iff, packages_tableOf, OrderedMap.keys_ofList, ClassName.mem_firstSeen,
      List.map_map, List.mem_map]
    simp only [mem_packagesIn_iff]
    constructor
    · rintro ⟨_, ⟨x, hx, p, hp, rfl⟩, rfl⟩
      exact ⟨x, hx, p, hp, rfl⟩
    · rintro ⟨x, hx, p, hp, rfl⟩
      exact ⟨_, ⟨x, hx, p, hp, rfl⟩, rfl⟩
  · exact hperm.nodup_iff.mpr (OrderedMap.nodup_keys _)
  · rw [hperm.length_eq, PackageTable.length_keys]
  · rw [hperm.mem_iff, PackageTable.contains, OrderedMap.contains_iff]

theorem size_tableOf (h : Distinct entries) :
    (tableOf folder entries).size = entries.countP fun x => ∃ p, Declares x p := by
  rw [PackageTable.size, OrderedMap.size, entries_tableOf ((distinct_iff folder).mp h),
    List.length_map, packagesIn, List.length_filterMap_eq_countP]
  refine List.countP_congr fun x _ => ?_
  rw [isSome_package?_iff, decide_eq_true_iff]

theorem get?_tableOf_iff_of_distinct (h : Distinct entries) :
    (tableOf folder entries).get? name = some package ↔
      package ∈ packagesIn folder entries ∧ package.name = name := by
  have hentries := entries_tableOf ((distinct_iff folder).mp h)
  rw [PackageTable.get?, ← OrderedMap.mem_entries_iff, hentries, List.mem_map]
  constructor
  · rintro ⟨q, hq, hpair⟩
    cases hpair
    exact ⟨hq, rfl⟩
  · rintro ⟨hmem, rfl⟩
    exact ⟨package, hmem, rfl⟩

/-- Entries that are listed in another order are distinct as well, and fill the same table. -/
theorem same_tableOf (h : Distinct entries) (hperm : others.Perm entries) :
    PackageTable.Same (tableOf folder entries) (tableOf folder others) := by
  have hothers : Distinct others := hperm.symm.pairwise h fun hxy p q hp hq =>
    (hxy q p hq hp).symm
  refine PackageTable.same_of_get? fun name => Option.ext fun package => ?_
  rw [get?_tableOf_iff_of_distinct h, get?_tableOf_iff_of_distinct hothers, packagesIn, packagesIn,
    (hperm.filterMap _).mem_iff]

theorem load_of_readFolder (h : d.readFolder folder = .ok entries) :
    load d folder = tableOf folder entries := by rw [load, h]

/-- The table that is loaded from a folder holds exactly what the files in it declare. If no two
files declare one name, there are as many packages as files that declare one, and in whatever order
the entries are listed, the table is the same. -/
theorem load_declared (h : d.readFolder folder = .ok entries) :
    Holding folder entries (load d folder) ∧
      (Distinct entries → (load d folder).size = entries.countP (fun x => ∃ p, Declares x p) ∧
        ∀ (d' : Disk) (others : List (String × Entry)), d'.readFolder folder = .ok others →
          others.Perm entries → PackageTable.Same (load d folder) (load d' folder)) := by
  rw [load_of_readFolder h]
  refine ⟨holding_tableOf folder entries, fun hdistinct => ⟨size_tableOf hdistinct, ?_⟩⟩
  intro d' others hothers hperm
  rw [load_of_readFolder hothers]
  exact same_tableOf hdistinct hperm

/-- A folder in which two files declare packages, between a folder and files that declare none: one
is no UTF-8, one is no JSON, and one has another ending. -/
def assorted : List (String × Entry) :=
  [("b.json", .file "\x7b\"name\": \"a\", \"styles\": \x7b\"m\": \"1\", \"n\": 2\x7d\x7d".toUTF8),
    ("a.json", .folder []), ("c.json", .file ⟨#[255]⟩), ("d.json", .file "\x7b".toUTF8),
    ("a.css", .file "\x7b\"name\": \"b\", \"styles\": \x7b\x7d\x7d".toUTF8),
    (".json", .file "\x7b\"name\": \"\", \"styles\": \x7b\x7d\x7d".toUTF8)]

/-- Only one of the files has the name of the package that it declares. -/
theorem load_declared_assorted : Distinct assorted ∧
    (load ⟨.folder [("p", .folder assorted)], []⟩ ⟨"p"⟩).size = 2 ∧
    (load ⟨.folder [("p", .folder assorted)], []⟩ ⟨"p"⟩).get? "a" =
      some ⟨"a", .ofList [("m", "1")], some ⟨"p/b.json"⟩⟩ ∧
    PackageTable.Same (load ⟨.folder [("p", .folder assorted)], []⟩ ⟨"p"⟩)
      (load ⟨.folder [("p", .folder assorted.reverse)], []⟩ ⟨"p"⟩) := by
  have hread : ∀ entries : List (String × Entry),
      Disk.readFolder ⟨.folder [("p", .folder entries)], []⟩ ⟨"p"⟩ = .ok entries := by
    intro entries
    rfl
  have hdistinct : Distinct assorted := (distinct_iff default).mpr (by decide +kernel)
  obtain ⟨-, hall⟩ := load_declared (hread assorted)
  obtain ⟨hsize, hsame⟩ := hall hdistinct
  refine ⟨hdistinct, ?_, by decide +kernel, ?_⟩
  · rw [hsize]
    decide +kernel
  · exact hsame _ _ (hread assorted.reverse) (List.reverse_perm assorted)

end Store
end StylePack
