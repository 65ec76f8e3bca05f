import Mathlib.Data.List.Forall2
import Mathlib.Data.List.Lex
import StylePack.Generate
import StylePack.Proofs.Path
import StylePack.Proofs.Text.ByteOrder
import StylePack.Proofs.Text.Trimmed

/-! Which stylesheets some paths name. A folder gives the stylesheets at all locations below it
(`mem_stylesheets_iff`). It sorts no more than the names in each folder by themselves, and yet all
of its paths stand in order, part by part (`pairwise_stylesheets`). So a list of paths gives, one
path after another, what each of them names (`collect_eq_flatten`). -/
namespace StylePack
open OrderedMap (lookup)
open Disk (IsPlain)

namespace Entry
variable {e f : Entry} {es : List (String × Entry)} {l : Location} {x : String × Entry}

/-- What holds of all entries holds of a folder if it holds of what is in it. -/
@[elab_as_elim]
theorem inductionOn {motive : Entry → Prop} (file : ∀ bytes, motive (.file bytes))
    (folder : ∀ es, (∀ x ∈ es, motive x.2) → motive (.folder es)) (e : Entry) : motive e :=
  match e with
  | .file bytes => file bytes
  | .folder es => folder es fun x hx =>
    have : sizeOf x.2 < sizeOf es := by
      have hpair : sizeOf x = 1 + sizeOf x.1 + sizeOf x.2 := by
        cases x
        rfl
      have := List.sizeOf_lt_of_mem hx
      omega
    inductionOn file folder x.2
termination_by sizeOf e

/-- In each folder the names are different, and they are such as can stand between slashes. -/
def Proper (e : Entry) : Prop :=
  ∀ l es, e.find? l = some (folder es) →
    (es.map Prod.fst).Nodup ∧ ∀ name ∈ es.map Prod.fst, IsPlain name

namespace Proper

theorem nodup (h : (folder es).Proper) : (es.map Prod.fst).Nodup := (h [] es (find?_nil _)).1

theorem isPlain (h : (folder es).Proper) (hx : x ∈ es) : IsPlain x.1 :=
  (h [] es (find?_nil _)).2 x.1 (List.mem_map_of_mem hx)

theorem lookup_eq (h : (folder es).Proper) (hx : x ∈ es) : lookup x.1 es = some x.2 :=
  (OrderedMap.lookup_eq_some_iff h.nodup).mpr hx

theorem of_find? (h : e.Proper) (hl : e.find? l = some f) : f.Proper := by
  intro k es hk
  refine h (l ++ k) es ?_
  rw [find?_append, hl, Option.bind_some, hk]

theorem of_mem (h : (folder es).Proper) (hx : x ∈ es) : x.2.Proper := by
  refine h.of_find? (l := [x.1]) ?_
  rw [find?_folder_cons, h.lookup_eq hx, Option.bind_some, find?_nil]

theorem of_entry? {d : Disk} (h : d.root.Proper) {p : Path} (he : d.entry? p = some e) :
    e.Proper := by
  unfold Disk.entry? at he
  split at he
  · exact h.of_find? he
  · cases he

/-- A folder's location further in is one in an entry of the folder. -/
theorem find?_cons_iff (h : (folder es).Proper) {name : String} :
    (folder es).find? (name :: l) = some f ↔ ∃ x ∈ es, x.1 = name ∧ x.2.find? l = some f := by
  rw [find?_folder_cons, Option.bind_eq_some_iff]
  constructor
  · rintro ⟨g, hg, hgl⟩
    exact ⟨(name, g), OrderedMap.mem_of_lookup hg, rfl, hgl⟩
  · rintro ⟨x, hx, rfl, hxl⟩
    exact ⟨x.2, h.lookup_eq hx, hxl⟩

theorem isPlain_of_find? (h : e.Proper) (hl : e.find? l = some f) : ∀ name ∈ l, IsPlain name := by
  induction l generalizing e with
  | nil => exact fun name hname => absurd hname List.not_mem_nil
  | cons n l ih =>
    cases e with
    | file bytes => cases hl
    | folder es =>
      obtain ⟨x, hx, rfl, hxl⟩ := h.find?_cons_iff.mp hl
      intro name hname
      rcases List.mem_cons.mp hname with rfl | hname
      · exact h.isPlain hx
      · exact ih (h.of_mem hx) hxl name hname

end Proper

@[simp] theorem proper_file (bytes : ByteArray) : (file bytes).Proper := by
  intro l es hl
  cases l <;> cases hl

@[simp] theorem proper_folder_iff : (folder es).Proper ↔
    (es.map Prod.fst).Nodup ∧ ∀ x ∈ es, IsPlain x.1 ∧ x.2.Proper := by
  refine ⟨fun h => ⟨h.nodup, fun x hx => ⟨h.isPlain hx, h.of_mem hx⟩⟩, ?_⟩
  rintro ⟨hnodup, hall⟩ l fs hl
  cases l with
  | nil =>
    cases hl
    refine ⟨hnodup, fun name hname => ?_⟩
    obtain ⟨x, hx, rfl⟩ := List.mem_map.mp hname
    exact (hall x hx).1
  | cons name l =>
    obtain ⟨f, hf, hfl⟩ := Option.bind_eq_some_iff.mp hl
    exact (hall _ (OrderedMap.mem_of_lookup hf)).2 l fs hfl

end Entry

namespace Path
variable {p q : Path} {l k : Location} {a b : String}

/-- The path of a location below the one that a path leads to. -/
def below (p : Path) (l : Location) : Path := l.foldl (fun p name => p.join ⟨name⟩) p

/-- Parts of other kinds come before names. -/
def Part.rank : Part → Nat
  | .root => 0
  | .current => 1
  | .parent => 2
  | .name _ => 3

/-- Parts are ordered by their kinds, and names by their bytes. -/
def Part.Before (a b : Part) : Prop :=
  a.rank < b.rank ∨ a.rank = b.rank ∧ Text.bytes a.text < Text.bytes b.text

/-- Paths are ordered part by part, from the first part on. -/
def Before (p q : Path) : Prop := List.Lex Part.Before p.parts q.parts

theorem parts_below (h : ∀ name ∈ l, IsPlain name) :
    (p.below l).parts = p.parts ++ l.map Part.name := by
  induction l generalizing p with
  | nil => exact (List.append_nil _).symm
  | cons name l ih =>
    obtain ⟨hname, hl⟩ := List.forall_mem_cons.mp h
    change ((p.join ⟨name⟩).below l).parts = _
    rw [ih hl, parts_join hname, List.append_assoc]
    rfl

/-- A name in a folder comes before a greater one, whatever lies below them. -/
theorem before_below (hl : ∀ name ∈ a :: l, IsPlain name) (hk : ∀ name ∈ b :: k, IsPlain name)
    (h : a < b) : (p.below (a :: l)).Before (p.below (b :: k)) := by
  have hname : (Part.name a).Before (.name b) := Or.inr ⟨rfl, Text.bytes_lt h⟩
  rw [Before, parts_below hl, parts_below hk]
  exact List.Lex.append_left Part.Before (.rel hname) p.parts

theorem below_injective (hl : ∀ name ∈ l, IsPlain name) (hk : ∀ name ∈ k, IsPlain name)
    (h : p.below l = p.below k) : l = k := by
  have hparts := congrArg parts h
  rw [parts_below hl, parts_below hk] at hparts
  exact List.map_injective_iff.mpr (fun _ _ => Part.name.inj) (List.append_cancel_left hparts)

theorem Part.not_before_self (a : Part) : ¬ a.Before a := by
  rintro (h | ⟨-, h⟩)
  · exact absurd h (Nat.lt_irrefl _)
  · exact absurd h (List.lt_irrefl _)

theorem not_before_self (p : Path) : ¬ p.Before p := by
  unfold Before
  generalize p.parts = ps
  induction ps with
  | nil => exact nofun
  | cons a ps ih =>
    intro h
    cases h with
    | rel h => exact a.not_before_self h
    | cons h => exact ih h

end Path

namespace Generate
variable {d : Disk} {e : Entry} {p q : Path} {es : List (String × Entry)} {l : Location}
  {name : String}

/-- The name of a stylesheet: behind its last point, which is not its first character, it says
`css` in letters of either case. -/
def IsSheetName (name : String) : Prop :=
  ∃ stem ending : List Char, name.toList = stem ++ '.' :: ending ∧ stem ≠ [] ∧ '.' ∉ ending ∧
    Text.sameLetters ending "css".toList = true

theorem isStylesheet_iff :
    isStylesheet p = true ↔ ∃ name, p.fileName? = some name ∧ IsSheetName name := by
  rw [isStylesheet, Path.hasExtension, Path.extension?]
  cases p.fileName? with
  | none => simp
  | some name =>
    simp only [Option.some.injEq, exists_eq_left']
    constructor
    · intro h
      split at h
      · next stem ending hsplit =>
        obtain ⟨hname, hpoint⟩ := Text.splitLast_eq_some hsplit
        split_ifs at h with hstem
        · cases h
        · rw [List.isEmpty_iff] at hstem
          rw [Option.any_some, Text.sameName, String.toList_ofList] at h
          exact ⟨stem, ending, hname, hstem, hpoint, h⟩
      · cases h
    · rintro ⟨stem, ending, hname, hstem, hpoint, hletters⟩
      rw [hname, Text.splitLast_append stem hpoint]
      dsimp only
      rw [if_neg (by simpa using hstem), Option.any_some, Text.sameName, String.toList_ofList,
        hletters]

/-- The stylesheets in a folder, from entry to entry in the order of their names. -/
theorem stylesheets_folder (p : Path) (es : List (String × Entry)) :
    stylesheets p (.folder es) = (es.mergeSort fun a b => decide (a.1 ≤ b.1)).flatMap
      fun x => stylesheets (p.join ⟨x.1⟩) x.2 := by
  have hmap : stylesheetsByName p es = es.map fun x => (x.1, stylesheets (p.join ⟨x.1⟩) x.2) := by
    induction es with
    | nil => rfl
    | cons x es ih => rw [stylesheetsByName, ih, List.map_cons]
  have hsort := List.map_mergeSort (r := fun a b : String × Entry => decide (a.1 ≤ b.1))
    (s := fun a b : String × List Path => decide (a.1 ≤ b.1))
    (f := fun x => (x.1, stylesheets (p.join ⟨x.1⟩) x.2)) (l := es) fun _ _ _ _ => rfl
  rw [stylesheets, hmap, ← hsort, List.flatMap_map]

/-- What is found in an entry: the files below it that are stylesheets. -/
theorem mem_stylesheets_iff (h : e.Proper) : q ∈ stylesheets p e ↔
    ∃ l bytes, e.find? l = some (.file bytes) ∧ p.below l = q ∧ isStylesheet q = true := by
  induction e using Entry.inductionOn generalizing p with
  | file bytes =>
    have hfile : q ∈ stylesheets p (.file bytes) ↔ p = q ∧ isStylesheet q = true := by
      rw [stylesheets]
      split_ifs with hp
      · rw [List.mem_singleton]
        exact ⟨fun hq => ⟨hq.symm, hq ▸ hp⟩, fun hq => hq.1.symm⟩
      · exact ⟨fun hq => absurd hq List.not_mem_nil, fun hq => absurd (hq.1 ▸ hq.2) hp⟩
    rw [hfile]
    constructor
    · exact fun hq => ⟨[], bytes, rfl, hq⟩
    · rintro ⟨l, bytes', hl, hq⟩
      cases l with
      | nil => exact hq
      | cons name l => cases hl
  | folder es ih =>
    rw [stylesheets_folder, List.mem_flatMap]
    simp only [List.mem_mergeSort]
    constructor
    · rintro ⟨x, hx, hq⟩
      obtain ⟨l, bytes, hl, hbelow⟩ := (ih x hx (h.of_mem hx)).mp hq
      exact ⟨x.1 :: l, bytes, h.find?_cons_iff.mpr ⟨x, hx, rfl, hl⟩, hbelow⟩
    · rintro ⟨l, bytes, hl, hbelow⟩
      cases l with
      | nil => cases hl
      | cons name l =>
        obtain ⟨x, hx, rfl, hxl⟩ := h.find?_cons_iff.mp hl
        exact ⟨x, hx, (ih x hx (h.of_mem hx)).mpr ⟨l, bytes, hxl, hbelow⟩⟩

/-- What is found in an entry stands in the order of paths. -/
theorem pairwise_stylesheets (h : e.Proper) : (stylesheets p e).Pairwise Path.Before := by
  induction e using Entry.inductionOn generalizing p with
  | file bytes =>
    rw [stylesheets]
    split_ifs
    · exact List.pairwise_singleton _ _
    · exact List.Pairwise.nil
  | folder es ih =>
    have hbelow : ∀ {x q}, x ∈ es → q ∈ stylesheets (p.join ⟨x.1⟩) x.2 →
        ∃ l, (∀ name ∈ x.1 :: l, IsPlain name) ∧ p.below (x.1 :: l) = q := by
      intro x q hx hq
      obtain ⟨l, bytes, hl, rfl, -⟩ := (mem_stylesheets_iff (h.of_mem hx)).mp hq
      exact ⟨l, List.forall_mem_cons.mpr ⟨h.isPlain hx, (h.of_mem hx).isPlain_of_find? hl⟩, rfl⟩
    rw [stylesheets_folder, List.pairwise_flatMap]
    constructor
    · exact fun x hx => ih x (List.mem_mergeSort.mp hx) (h.of_mem (List.mem_mergeSort.mp hx))
    · refine (Text.pairwise_mergeSort_fst h.nodup).imp_of_mem fun {x y} hx hy hlt q hq r hr => ?_
      obtain ⟨l, hl, rfl⟩ := hbelow (List.mem_mergeSort.mp hx) hq
      obtain ⟨k, hk, rfl⟩ := hbelow (List.mem_mergeSort.mp hy) hr
      exact Path.before_below hl hk hlt

/-- At a location below an entry is a file with the name of a stylesheet. -/
def SheetAt (e : Entry) (l : Location) : Prop :=
  (∃ bytes, e.find? l = some (.file bytes)) ∧ ∃ name, l.getLast? = some name ∧ IsSheetName name

/-- The paths of all stylesheets below an entry with path `p`, each once, in the order of paths. -/
structure Lists (p : Path) (e : Entry) (qs : List Path) : Prop where
  mem_iff : ∀ q, q ∈ qs ↔ ∃ l, SheetAt e l ∧ p.below l = q
  /-- The paths tell the stylesheets apart. -/
  injective : ∀ l k, SheetAt e l → SheetAt e k → p.below l = p.below k → l = k
  nodup : qs.Nodup
  sorted : qs.Pairwise Path.Before

/-- What a path names. -/
inductive Names (d : Disk) (p : Path) : List Path → Prop
  /-- A folder names all stylesheets below it. -/
  | folder {es qs} (h : d.entry? p = some (.folder es)) (hqs : Lists p (.folder es) qs) :
      Names d p qs
  /-- A file names itself if it is a stylesheet. -/
  | sheet {bytes name} (h : d.entry? p = some (.file bytes)) (hname : p.fileName? = some name)
      (hsheet : IsSheetName name) : Names d p [p]
  | other {bytes} (h : d.entry? p = some (.file bytes))
      (hother : ∀ name, p.fileName? = some name → ¬ IsSheetName name) : Names d p []
  /-- A path that leads nowhere names nothing. -/
  | missing (h : d.entry? p = none) : Names d p []

/-- A stylesheet in a folder is known by its name, whatever path leads to it. -/
theorem mem_stylesheets_folder_iff (h : (Entry.folder es).Proper) :
    q ∈ stylesheets p (.folder es) ↔ ∃ l, SheetAt (.folder es) l ∧ p.below l = q := by
  have hsheet : ∀ {l bytes}, (Entry.folder es).find? l = some (.file bytes) →
      (isStylesheet (p.below l) = true ↔ ∃ name, l.getLast? = some name ∧ IsSheetName name) := by
    intro l bytes hl
    rcases List.eq_nil_or_concat l with rfl | ⟨k, name, rfl⟩
    · cases hl
    · have hplain := h.isPlain_of_find? hl name (by simp)
      rw [isStylesheet_iff, List.concat_eq_append, Path.below, List.foldl_append, List.foldl_cons,
        List.foldl_nil, Path.fileName?_join hplain, List.getLast?_concat]
  rw [mem_stylesheets_iff h]
  constructor
  · rintro ⟨l, bytes, hl, rfl, hq⟩
    exact ⟨l, ⟨⟨bytes, hl⟩, (hsheet hl).mp hq⟩, rfl⟩
  · rintro ⟨l, ⟨⟨bytes, hl⟩, hname⟩, rfl⟩
    exact ⟨l, bytes, hl, rfl, (hsheet hl).mpr hname⟩

theorem lists_stylesheets (h : (Entry.folder es).Proper) :
    Lists p (.folder es) (stylesheets p (.folder es)) where
  mem_iff _ := mem_stylesheets_folder_iff h
  injective := by
    rintro l k ⟨⟨bytes, hl⟩, -⟩ ⟨⟨bytes', hk⟩, -⟩ hlk
    exact Path.below_injective (h.isPlain_of_find? hl) (h.isPlain_of_find? hk) hlk
  nodup := by
    refine (pairwise_stylesheets h).imp fun {q r} hqr he => ?_
    rw [he] at hqr
    exact Path.not_before_self r hqr
  sorted := pairwise_stylesheets h

theorem names_stylesheets (h : d.root.Proper) (p : Path) :
    Names d p (((d.entry? p).map (stylesheets p)).getD []) := by
  cases he : d.entry? p with
  | none => exact .missing he
  | some e =>
    rw [Option.map_some, Option.getD_some]
    cases e with
    | folder es => exact .folder he (lists_stylesheets (h.of_entry? he))
    | file bytes =>
      rw [stylesheets]
      split_ifs with hp
      · obtain ⟨name, hname, hsheet⟩ := isStylesheet_iff.mp hp
        exact .sheet he hname hsheet
      · exact .other he fun name hname hsheet => hp (isStylesheet_iff.mpr ⟨name, hname, hsheet⟩)

/-- Paths give the stylesheets that they name, one path after another. -/
theorem collect_eq_flatten (h : d.root.Proper) (paths : List Path) :
    ∃ named, List.Forall₂ (Names d) paths named ∧ collect d paths = named.flatten := by
  refine ⟨paths.map fun p => ((d.entry? p).map (stylesheets p)).getD [], ?_, rfl⟩
  rw [List.forall₂_map_right_iff, List.forall₂_same]
  exact fun p _ => names_stylesheets h p

/-- A folder with the name of a stylesheet, with which the name of a stylesheet beside it begins.
The program works in the folder around both, and one more stylesheet lies outside of it. -/
def site : Disk :=
  ⟨.folder [("srv", .folder [("s", .folder [("a.css-b.css", .file .empty),
    ("a.css", .folder [("q.CSS", .file .empty)])])]), ("t.css", .file .empty)], ["srv"]⟩

/-- What lies below a folder comes before the names that its own name begins, though as a character
`-` comes before the slash. It does not matter from where a path starts. -/
theorem collect_eq_flatten_site : site.root.Proper ∧
    ∃ named, List.Forall₂ (Names site) [⟨"/srv/s"⟩, ⟨"s/a.css-b.css"⟩, ⟨"../t.css"⟩, ⟨"t.css"⟩]
      named ∧ named.flatten =
        [⟨"/srv/s/a.css/q.CSS"⟩, ⟨"/srv/s/a.css-b.css"⟩, ⟨"s/a.css-b.css"⟩, ⟨"../t.css"⟩] := by
  have hplain : ∀ name ∈ ["srv", "s", "a.css-b.css", "a.css", "q.CSS", "t.css"], IsPlain name := by
    decide
  have hsite : site.root.Proper := by simp [site, hplain]
  have hsort : ∀ e f : Entry, ([("a.css-b.css", e), ("a.css", f)].mergeSort
      fun a b => decide (a.1 ≤ b.1)) = [("a.css", f), ("a.css-b.css", e)] := by
    intro e f
    simp [List.mergeSort]
  have hfolder : ((site.entry? ⟨"/srv/s"⟩).map (stylesheets ⟨"/srv/s"⟩)).getD [] =
      [⟨"/srv/s/a.css/q.CSS"⟩, ⟨"/srv/s/a.css-b.css"⟩] := by
    have hentry : site.entry? ⟨"/srv/s"⟩ = some (.folder [("a.css-b.css", .file .empty),
      ("a.css", .folder [("q.CSS", .file .empty)])]) := by rfl
    rw [hentry, Option.map_some, Option.getD_some, stylesheets_folder, hsort]
    simp only [List.flatMap_cons, List.flatMap_nil, stylesheets_folder, List.mergeSort_singleton]
    decide +kernel
  have hfiles : collect site [⟨"s/a.css-b.css"⟩, ⟨"../t.css"⟩, ⟨"t.css"⟩] =
      [⟨"s/a.css-b.css"⟩, ⟨"../t.css"⟩] := by decide +kernel
  obtain ⟨named, hnamed, hcollect⟩ :=
    collect_eq_flatten hsite [⟨"/srv/s"⟩, ⟨"s/a.css-b.css"⟩, ⟨"../t.css"⟩, ⟨"t.css"⟩]
  refine ⟨hsite, named, hnamed, ?_⟩
  rw [collect] at hfiles
  rw [← hcollect, collect, List.flatMap_cons, hfolder, hfiles]
  rfl

end Generate
end StylePack
