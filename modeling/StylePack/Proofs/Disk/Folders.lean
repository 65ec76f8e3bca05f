import Mathlib.Data.List.Induction
import Mathlib.Data.List.TakeWhile
import Mathlib.Tactic.SplitIfs
import StylePack.Disk.Access

/-! Paths on a disk whose folders stay. A walk that ends at a folder leads to it still after an edit
that keeps all folders (`walk_kept`), a folder that is there is not made again
(`makeAll_of_readFolder`), and one that was made is empty (`readFolder_of_makeFolder`). -/
namespace StylePack
open OrderedMap (lookup)

namespace Entry
variable {e e' : Entry} {l : Location} {es : List (String × Entry)}

/-- Every folder of `e` is a folder of `e'`. -/
def FoldersKept (e e' : Entry) : Prop :=
  ∀ l es, e.find? l = some (folder es) → ∃ es', e'.find? l = some (folder es')

theorem isFolder_of_find? {f : Entry} (h : f.find? l = some (folder es)) :
    ∃ fs, f = folder fs := by
  cases f with
  | folder fs => exact ⟨fs, rfl⟩
  | file bytes => cases l <;> cases h

/-- An edit further in is seen by whoever goes the same way, -/
theorem find?_edit_cons_self (change : List (String × Entry) → List (String × Entry))
    (n : String) (k : Location) :
    ((folder es).edit change (n :: l)).find? (n :: k) =
      (lookup n es).bind fun f => (f.edit change l).find? k := by
  rw [edit]
  cases hf : lookup n es with
  | none => rw [find?_folder_cons, hf, Option.bind_none, Option.bind_none]
  | some f => rw [find?_folder_cons, OrderedMap.lookup_write_self, Option.bind_some,
      Option.bind_some]

/-- and by nobody who goes another way. -/
theorem find?_edit_cons_ne {change : List (String × Entry) → List (String × Entry)}
    {m n : String} (h : m ≠ n) (k : Location) :
    ((folder es).edit change (n :: l)).find? (m :: k) = (folder es).find? (m :: k) := by
  rw [edit]
  cases hf : lookup n es with
  | none => rfl
  | some f => rw [find?_folder_cons, find?_folder_cons, OrderedMap.lookup_write_ne _ h]

/-- An edit in one folder keeps all folders, if it keeps those that lie directly in it. -/
theorem foldersKept_edit {change : List (String × Entry) → List (String × Entry)}
    (h : e.find? l = some (folder es))
    (hchange : ∀ k fs, lookup k es = some (folder fs) → lookup k (change es) = some (folder fs)) :
    FoldersKept e (e.edit change l) := by
  induction l generalizing e with
  | nil =>
    rw [find?_nil] at h
    cases h
    intro k gs hk
    cases k with
    | nil => exact ⟨_, find?_nil _⟩
    | cons m k =>
      rw [find?_folder_cons] at hk
      obtain ⟨f, hf, hfk⟩ := Option.bind_eq_some_iff.mp hk
      obtain ⟨fs, rfl⟩ := isFolder_of_find? hfk
      refine ⟨gs, ?_⟩
      rw [edit, find?_folder_cons, hchange m fs hf, Option.bind_some, hfk]
  | cons n l ih =>
    obtain ⟨fs, rfl⟩ := isFolder_of_find? h
    rw [find?_folder_cons] at h
    obtain ⟨g, hg, hgl⟩ := Option.bind_eq_some_iff.mp h
    intro k gs hk
    cases k with
    | nil =>
      rw [edit, hg]
      exact ⟨_, find?_nil _⟩
    | cons m k =>
      by_cases hm : m = n
      · subst hm
        rw [find?_folder_cons, hg, Option.bind_some] at hk
        rw [find?_edit_cons_self, hg, Option.bind_some]
        exact ih hgl k gs hk
      · rw [find?_edit_cons_ne hm]
        exact ⟨gs, hk⟩

/-- What is written over no folder leaves the folders. -/
theorem lookup_write_of_free {name : String} (hfree : ∀ fs, lookup name es ≠ some (folder fs))
    (new : Entry) {k : String} {fs : List (String × Entry)} (h : lookup k es = some (folder fs)) :
    lookup k (OrderedMap.write name new es) = some (folder fs) := by
  have hne : k ≠ name := by
    rintro rfl
    exact hfree fs h
  rw [OrderedMap.lookup_write_ne _ hne, h]

end Entry

theorem bind_eq_ok {ρ α β : Type} {x : Except ρ α} {f : α → Except ρ β} {b : β} :
    x >>= f = .ok b ↔ ∃ a, x = .ok a ∧ f a = .ok b := by
  cases x with
  | error r => simp [bind, Except.bind]
  | ok a => simp [bind, Except.bind]

namespace Disk
variable {d d' : Disk} {k l m : Location} {es : List (String × Entry)} {ps qs : List String}
  {p : Path} {piece : String}

theorem entriesAt_eq_ok : d.entriesAt l = .ok es ↔ d.root.find? l = some (.folder es) := by
  unfold entriesAt
  cases d.root.find? l with
  | none => simp
  | some e => cases e <;> simp

/-- All that a step can be: it stays, goes out of a folder, or goes to an entry of a folder. -/
theorem step_eq_ok : d.step l piece = .ok m ↔ ∃ es, d.root.find? l = some (.folder es) ∧
    ((piece = "" ∨ piece = ".") ∧ m = l ∨ piece = ".." ∧ m = l.dropLast ∨
      piece ∉ ["", ".", ".."] ∧ piece.utf8ByteSize ≤ longestName ∧ (lookup piece es).isSome ∧
        m = l ++ [piece]) := by
  rw [step, bind_eq_ok]
  simp only [entriesAt_eq_ok]
  refine exists_congr fun es => and_congr_right fun _ => ?_
  by_cases hstay : piece = "" ∨ piece = "."
  · have hname : piece ∈ ["", ".", ".."] := by
      rcases hstay with rfl | rfl <;> simp
    have hup : piece ≠ ".." := by
      rintro rfl
      simp at hstay
    simp [hstay, hname, hup, pure, Except.pure, eq_comm (a := m)]
  · rw [if_neg hstay]
    by_cases hup : piece = ".."
    · rw [if_pos hup]
      simp [hup, pure, Except.pure, eq_comm (a := m)]
    · have hname : piece ∉ ["", ".", ".."] := by
        rw [not_or] at hstay
        simp [hstay, hup]
      rw [if_neg hup]
      by_cases hsize : piece.utf8ByteSize > longestName
      · have hle : ¬ piece.utf8ByteSize ≤ longestName := by omega
        simp [hstay, hup, hsize, hle, throw, throwThe, MonadExceptOf.throw]
      · have hle : piece.utf8ByteSize ≤ longestName := by omega
        rw [if_neg hsize]
        cases hlook : lookup piece es with
        | none => simp [hstay, hup, throw, throwThe, MonadExceptOf.throw]
        | some e => simp [hstay, hup, hle, hname, pure, Except.pure, eq_comm (a := m)]

theorem find?_concat (hl : d.root.find? l = some (.folder es)) (name : String) :
    d.root.find? (l ++ [name]) = lookup name es := by
  rw [Entry.find?_append, hl, Option.bind_some, Entry.find?_folder_cons]
  cases lookup name es <;> simp

theorem step_empty (h : d.root.find? l = some (.folder es)) : d.step l "" = .ok l :=
  step_eq_ok.mpr ⟨es, h, Or.inl ⟨Or.inl rfl, rfl⟩⟩

theorem walk_concat (d : Disk) (k : Location) (ps : List String) (piece : String) :
    d.walk k (ps ++ [piece]) = d.walk k ps >>= (d.step · piece) := by
  rw [walk, List.foldlM_append]
  simp only [List.foldlM_cons, List.foldlM_nil, bind_pure]
  rfl

/-- A change of a disk that keeps all folders, and the one that the program works in. -/
structure Kept (d d' : Disk) : Prop where
  work_eq : d'.work = d.work
  folders : Entry.FoldersKept d.root d'.root

/-- The way to a folder stays the way to it where all folders are kept. -/
theorem walk_kept (hkept : Kept d d') (h : d.walk k ps = .ok l)
    (hl : d.root.find? l = some (.folder es)) : d'.walk k ps = .ok l := by
  induction ps using List.reverseRecOn generalizing l es with
  | nil => exact h
  | append_singleton ps piece ih =>
    rw [walk_concat, bind_eq_ok] at h ⊢
    obtain ⟨m, hm, hstep⟩ := h
    obtain ⟨fs, hfs, hcases⟩ := step_eq_ok.mp hstep
    obtain ⟨gs, hgs⟩ := hkept.folders m fs hfs
    refine ⟨m, ih hm hfs, step_eq_ok.mpr ⟨gs, hgs, ?_⟩⟩
    refine hcases.imp_right fun hcases => hcases.imp_right ?_
    rintro ⟨hname, hsize, -, rfl⟩
    -- the folder that the step leads to is kept, so its name is listed
    obtain ⟨hs, hhs⟩ := hkept.folders _ _ hl
    rw [Entry.find?_append, hgs, Option.bind_some, Entry.find?_folder_cons] at hhs
    obtain ⟨f, hf, -⟩ := Option.bind_eq_some_iff.mp hhs
    exact ⟨hname, hsize, by rw [hf, Option.isSome_some], rfl⟩

/-- Empty pieces at the end lead nowhere else. -/
theorem walk_of_append_empty (hq : ∀ q ∈ qs, q = "") (h : d.walk k (ps ++ qs) = .ok l) :
    d.walk k ps = .ok l := by
  induction qs using List.reverseRecOn generalizing l with
  | nil => rwa [List.append_nil] at h
  | append_singleton qs q ih =>
    rw [← List.append_assoc, walk_concat, bind_eq_ok, hq q (by simp)] at h
    obtain ⟨m, hm, hstep⟩ := h
    obtain ⟨fs, hfs, -⟩ := step_eq_ok.mp hstep
    rw [step_empty hfs] at hstep
    cases hstep
    exact ih (fun q hq' => hq q (by simp [hq'])) hm

theorem walk_append_empty (hq : ∀ q ∈ qs, q = "") (h : d.walk k ps = .ok l)
    (hl : d.root.find? l = some (.folder es)) : d.walk k (ps ++ qs) = .ok l := by
  induction qs using List.reverseRecOn with
  | nil => rwa [List.append_nil]
  | append_singleton qs q ih =>
    rw [← List.append_assoc, walk_concat, ih fun q hq' => hq q (by simp [hq']), hq q (by simp)]
    exact step_empty hl

theorem readFolder_eq_ok :
    d.readFolder p = .ok es ↔ ∃ l, d.locate p = .ok l ∧ d.root.find? l = some (.folder es) := by
  rw [readFolder, bind_eq_ok]
  simp only [entriesAt_eq_ok]

/-- The texts between the slashes of a path. -/
def pieces (p : Path) : List String :=
  (Text.splitWhere (· == '/') p.text.toList).map String.ofList

theorem route_eq_ok (h : route p = .ok ps) : ps = pieces p ∧ p.text ≠ "" := by
  unfold route at h
  split_ifs at h with _ _ hempty
  rw [Bool.not_eq_true, String.isEmpty_eq_false_iff] at hempty
  exact ⟨(Except.ok.inj h).symm, hempty⟩

theorem locate_eq_ok :
    d.locate p = .ok l ↔ ∃ ps, route p = .ok ps ∧ d.walk (d.start p) ps = .ok l := bind_eq_ok

theorem locate_kept (hkept : Kept d d') (h : d.locate p = .ok l)
    (hl : d.root.find? l = some (.folder es)) : d'.locate p = .ok l := by
  obtain ⟨ps, hroute, hwalk⟩ := locate_eq_ok.mp h
  have hstart : d'.start p = d.start p := by rw [start, start, hkept.work_eq]
  exact locate_eq_ok.mpr ⟨ps, hroute, hstart ▸ walk_kept hkept hwalk hl⟩

theorem entry?_of_locate (h : d.locate p = .ok l) : d.entry? p = d.root.find? l := by
  rw [ entry?, h]

theorem isFolder_iff : d.isFolder p = true ↔ ∃ es, d.readFolder p = .ok es := by
  rw [isFolder]
  cases hlocate : d.locate p with
  | error r => simp [ entry?, readFolder, hlocate, bind, Except.bind]
  | ok l =>
    rw [entry?_of_locate hlocate, Option.any_eq_true]
    simp only [readFolder_eq_ok, hlocate, Except.ok.injEq, exists_eq_left']
    constructor
    · rintro ⟨e, he, hfolder⟩
      cases e with
      | file bytes => cases hfolder
      | folder es => exact ⟨es, he⟩
    · rintro ⟨es, hes⟩
      exact ⟨_, hes, rfl⟩

/-- An edit of a folder is seen at the folder's path. -/
theorem readFolder_edit {change : List (String × Entry) → List (String × Entry)}
    (h : d.locate p = .ok l) (hl : d.root.find? l = some (.folder es))
    (hchange : ∀ k fs, lookup k es = some (.folder fs) →
      lookup k (change es) = some (.folder fs)) :
    Disk.readFolder { d with root := d.root.edit change l } p = .ok (change es) := by
  have hkept : Kept d { d with root := d.root.edit change l } :=
    ⟨rfl, Entry.foldersKept_edit hl hchange⟩
  exact readFolder_eq_ok.mpr ⟨l, locate_kept hkept h hl, Entry.find?_edit_self change hl⟩

/-- The place named by pieces whose last one that is not empty is a name. -/
theorem place_append {name : String} (hname : name ≠ "") (hq : ∀ q ∈ qs, q = "") :
    d.place k (ps ++ [name] ++ qs) = (do
      let folder ← d.walk k ps
      let _ ← d.entriesAt folder
      pure ⟨folder, name⟩) := by
  have hpieces : ((ps ++ [name] ++ qs).reverse.dropWhile (·.isEmpty)).reverse = ps ++ [name] := by
    rw [List.reverse_append, List.dropWhile_append_of_pos, List.reverse_append,
      List.reverse_singleton, List.singleton_append, List.dropWhile_cons_of_neg,
      List.reverse_cons, List.reverse_reverse]
    · simpa using hname
    · intro q hqs
      rw [hq q (List.mem_reverse.mp hqs)]
      rfl
  rw [place]
  simp only [hpieces, List.dropLast_concat, List.getLast?_concat, Option.getD_some]

theorem place_append_iff {name : String} {target : Place} (hname : name ≠ "")
    (hq : ∀ q ∈ qs, q = "") : d.place k (ps ++ [name] ++ qs) = .ok target ↔
      ∃ l es, d.walk k ps = .ok l ∧ d.root.find? l = some (.folder es) ∧ target = ⟨l, name⟩ := by
  rw [place_append hname hq]
  simp only [bind_eq_ok, entriesAt_eq_ok, pure, Except.pure, Except.ok.injEq]
  constructor
  · rintro ⟨l, hwalk, es, hl, rfl⟩
    exact ⟨l, es, hwalk, hl, rfl⟩
  · rintro ⟨l, es, hwalk, hl, rfl⟩
    exact ⟨l, hwalk, es, hl, rfl⟩

/-- Without a name, pieces name the folder that they start from. -/
theorem place_empty_iff {target : Place} (hempty : ∀ q ∈ ps, q = "") : d.place k ps = .ok target ↔
    (∃ es, d.root.find? k = some (.folder es)) ∧ target = ⟨k, "."⟩ := by
  have hpieces : (ps.reverse.dropWhile (·.isEmpty)).reverse = [] := by
    rw [List.reverse_eq_nil_iff, List.dropWhile_eq_nil_iff]
    intro p hp
    rw [hempty p (List.mem_reverse.mp hp)]
    rfl
  rw [place]
  simp only [hpieces, bind_eq_ok, entriesAt_eq_ok, pure, Except.pure, Except.ok.injEq]
  constructor
  · rintro ⟨l, hwalk, es, hl, rfl⟩
    cases hwalk
    exact ⟨⟨es, hl⟩, rfl⟩
  · rintro ⟨⟨es, hl⟩, rfl⟩
    exact ⟨k, rfl, es, hl, rfl⟩

theorem pieces_cases (ps : List String) :
    (∀ p ∈ ps, p = "") ∨
      ∃ qs name rs, ps = qs ++ [name] ++ rs ∧ name ≠ "" ∧ ∀ r ∈ rs, r = "" := by
  induction ps using List.reverseRecOn with
  | nil => exact Or.inl fun p hp => absurd hp List.not_mem_nil
  | append_singleton ps p ih =>
    by_cases hp : p = ""
    · subst hp
      rcases ih with hall | ⟨qs, name, rs, rfl, hname, hrs⟩
      · exact Or.inl (by simpa [or_imp, forall_and] using hall)
      · exact Or.inr ⟨qs, name, rs ++ [""], by simp, hname,
          by simpa [or_imp, forall_and] using hrs⟩
    · exact Or.inr ⟨ps, p, [], by simp, hp, by simp⟩

/-- A folder that is there is found at the place that its path names. -/
theorem found_of_walk (h : d.walk k ps = .ok l) (hl : d.root.find? l = some (.folder es)) :
    ∃ target gs, d.place k ps = .ok target ∧ d.found target = .ok (some (.folder gs)) := by
  rcases pieces_cases ps with hall | ⟨qs, name, rs, rfl, hname, hrs⟩
  · have hwalk : d.walk k [] = .ok l := walk_of_append_empty hall (by rwa [List.nil_append])
    cases hwalk
    exact ⟨⟨k, "."⟩, [], (place_empty_iff hall).mpr ⟨⟨es, hl⟩, rfl⟩, if_pos (Or.inl rfl)⟩
  · have hwalk := walk_of_append_empty hrs h
    rw [walk_concat, bind_eq_ok] at hwalk
    obtain ⟨m, hm, hstep⟩ := hwalk
    obtain ⟨fs, hfs, hcases⟩ := step_eq_ok.mp hstep
    have hplace : d.place k (qs ++ [name] ++ rs) = .ok ⟨m, name⟩ :=
      (place_append_iff hname hrs).mpr ⟨m, fs, hm, hfs, rfl⟩
    refine ⟨⟨m, name⟩, ?_⟩
    rcases hcases with ⟨hstay, -⟩ | ⟨hup, -⟩ | ⟨hplain, hsize, -, rfl⟩
    · exact ⟨[], hplace, if_pos (Or.inl (hstay.resolve_left hname))⟩
    · exact ⟨[], hplace, if_pos (Or.inr hup)⟩
    · refine ⟨es, hplace, ?_⟩
      simp only [List.mem_cons, List.not_mem_nil, or_false, not_or] at hplain
      rw [found, if_neg (by simp [hplain.2]), if_neg (by simpa using hsize), hl]

/-- A folder that is there is not made again, -/
theorem makeFolder_of_isFolder (h : d.isFolder p = true) :
    d.makeFolder p = .error .alreadyThere := by
  obtain ⟨es, hread⟩ := isFolder_iff.mp h
  obtain ⟨l, hlocate, hl⟩ := readFolder_eq_ok.mp hread
  obtain ⟨ps, hroute, hwalk⟩ := locate_eq_ok.mp hlocate
  obtain ⟨target, gs, hplace, hfound⟩ := found_of_walk hwalk hl
  simp [makeFolder, hroute, hplace, hfound, bind, Except.bind, throw, throwThe,
    MonadExceptOf.throw]

theorem makeFolders_of_isFolder (h : d.isFolder p = true) (outer : List Path) :
    d.makeFolders (p :: outer) = (.ok (), d) := by
  rw [makeFolders, makeFolder_of_isFolder h]
  simp [h]

/-- and no folder around it is made. -/
theorem makeAll_of_readFolder (h : d.readFolder p = .ok es) : d.makeAll p = (.ok (), d) := by
  obtain ⟨l, hlocate, -⟩ := readFolder_eq_ok.mp h
  obtain ⟨ps, hroute, -⟩ := locate_eq_ok.mp hlocate
  have htext : p.text.isEmpty = false :=
    String.isEmpty_eq_false_iff.mpr (route_eq_ok hroute).2
  rw [makeAll, List.filter_cons_of_pos (by rw [htext]; rfl)]
  exact makeFolders_of_isFolder (isFolder_iff.mpr ⟨es, h⟩) _

/-- What it takes to make a folder, and what it changes. -/
theorem makeFolder_eq_ok (h : d.makeFolder p = .ok d') : ∃ qs name rs l es,
    route p = .ok (qs ++ [name] ++ rs) ∧ (∀ r ∈ rs, r = "") ∧ name ∉ ["", ".", ".."] ∧
      name.utf8ByteSize ≤ longestName ∧ d.walk (d.start p) qs = .ok l ∧
        d.root.find? l = some (.folder es) ∧ lookup name es = none ∧
          d' = d.put l name (.folder []) := by
  obtain ⟨ps, hroute, hmake⟩ := bind_eq_ok.mp h
  obtain ⟨target, hplace, hmake⟩ := bind_eq_ok.mp hmake
  obtain ⟨e, hfound, hmake⟩ := bind_eq_ok.mp hmake
  cases e with
  | some e => cases hmake
  | none =>
    cases hmake
    rcases pieces_cases ps with hall | ⟨qs, name, rs, rfl, hname, hrs⟩
    · obtain ⟨-, rfl⟩ := (place_empty_iff hall).mp hplace
      cases hfound
    · obtain ⟨l, es, hwalk, hl, rfl⟩ := (place_append_iff hname hrs).mp hplace
      unfold found at hfound
      split_ifs at hfound with hdots hsize
      · cases hfound
      · have hnone : lookup name es = none :=
          (find?_concat hl name).symm.trans (Except.ok.inj hfound)
        have hproper : name ∉ ["", ".", ".."] := by simpa [hname] using hdots
        exact ⟨qs, name, rs, l, es, hroute, hrs, hproper, Nat.le_of_not_lt hsize, hwalk, hl,
          hnone, rfl⟩

theorem work_makeFolder (h : d.makeFolder p = .ok d') : d'.work = d.work := by
  obtain ⟨qs, name, rs, l, es, -, -, -, -, -, -, -, rfl⟩ := makeFolder_eq_ok h
  rfl

/-- What holds of a disk and is kept by making one folder is kept by making some. -/
theorem makeFolders_induction {motive : Disk → Prop} {qs : List Path} (h : motive d)
    (hstep : ∀ {d d' : Disk}, ∀ q ∈ qs, motive d → d.makeFolder q = .ok d' → motive d') :
    motive (d.makeFolders qs).2 := by
  induction qs with
  | nil => exact h
  | cons q outer ih =>
    have houter := ih fun q hq => hstep q (List.mem_cons_of_mem _ hq)
    rw [makeFolders]
    split
    · exact hstep q List.mem_cons_self h ‹_›
    · split
      · rename_i hmakes
        rwa [hmakes] at houter
      · rename_i hmakes
        rw [hmakes] at houter
        split
        · exact hstep q List.mem_cons_self houter ‹_›
        · exact houter
    · exact h

@[simp] theorem work_makeFolders (d : Disk) (qs : List Path) :
    (d.makeFolders qs).2.work = d.work :=
  makeFolders_induction (motive := (·.work = d.work)) rfl fun _ _ hwork hmake =>
    (work_makeFolder hmake).trans hwork

@[simp] theorem start_makeFolders (d : Disk) (qs : List Path) (p : Path) :
    (d.makeFolders qs).2.start p = d.start p := by
  rw [start, start, work_makeFolders]

/-- What is put over no folder is reached through the folder it was put in. -/
theorem walk_put {name : String} (h : d.walk k ps = .ok l)
    (hl : d.root.find? l = some (.folder es)) (hproper : name ∉ ["", ".", ".."])
    (hsize : name.utf8ByteSize ≤ longestName)
    (hfree : ∀ fs, lookup name es ≠ some (.folder fs)) (new : Entry) :
    (d.put l name new).walk k (ps ++ [name]) = .ok (l ++ [name]) := by
  have hkept : Kept d (d.put l name new) :=
    ⟨rfl, Entry.foldersKept_edit hl fun k fs hk => Entry.lookup_write_of_free hfree new hk⟩
  have hstep : (d.put l name new).step l name = .ok (l ++ [name]) := by
    refine step_eq_ok.mpr
      ⟨_, Entry.find?_edit_self _ hl, Or.inr (Or.inr ⟨hproper, hsize, ?_, rfl⟩)⟩
    rw [OrderedMap.lookup_write_self, Option.isSome_some]
  rw [walk_concat, bind_eq_ok]
  exact ⟨l, walk_kept hkept h hl, hstep⟩

/-- A folder that was made is empty. -/
theorem readFolder_of_makeFolder (h : d.makeFolder p = .ok d') : d'.readFolder p = .ok [] := by
  obtain ⟨qs, name, rs, l, es, hroute, hrs, hproper, hsize, hwalk, hl, hnone, rfl⟩ :=
    makeFolder_eq_ok h
  have hmade := Entry.find?_put_self hl name (.folder [])
  have hfree : ∀ fs, lookup name es ≠ some (.folder fs) := by simp [hnone]
  refine readFolder_eq_ok.mpr ⟨l ++ [name], locate_eq_ok.mpr ⟨_, hroute, ?_⟩, hmade⟩
  exact walk_append_empty hrs (walk_put hwalk hl hproper hsize hfree (.folder [])) hmade

end Disk
end StylePack
