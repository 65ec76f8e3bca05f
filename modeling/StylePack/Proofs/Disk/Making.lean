import StylePack.Proofs.Disk.Changes

/-! Folders that can be made. Where the names of a path go down from a folder that is there and no
file is in the way (`Clear`), a folder can be made at the path (`makeAll_of_clear`). The folders
around it may be missing: their paths are clear as well (`Clear.outer`), and to make them leaves the
way clear (`Clear.of_made`). -/
namespace StylePack
open OrderedMap (lookup)
open Disk (pieces names)

namespace Path
variable {p q : Path} {part : Part} {ps rs : List Part}

theorem single_of_mem_parts (h : part ∈ p.parts) : '/' ∉ part.text.toList := by
  rw [parts_eq, List.mem_append] at h
  rcases h with h | h
  · rcases front_cases p with hfront | hfront | hfront <;> simp [hfront] at h <;> subst h <;> decide
  · exact (inner_of_mem h).single

theorem text_ofParts (h : ∀ part ∈ ps, part ≠ .root) :
    (ofParts ps).text.toList = ['/'].intercalate ((ps.map Part.text).map String.toList) := by
  induction ps with
  | nil => rfl
  | cons part ps ih =>
    have hrest := ih fun part hpart => h part (List.mem_cons_of_mem _ hpart)
    rw [ofParts_cons (h part List.mem_cons_self)]
    cases ps with
    | nil => simp
    | cons next ps =>
      rw [List.map_cons, List.map_cons] at hrest ⊢
      simp [List.intercalate_cons_cons, hrest]

theorem text_eq (p : Path) : p.text.toList = ['/'].intercalate ((pieces p).map String.toList) := by
  simp [pieces, Function.comp_def, Text.intercalate_splitWhere]

/-- Parts are written no longer than a path whose pieces have them all. -/
theorem sublist_of_pieces (hroot : ∀ part ∈ ps, part ≠ .root)
    (h : (ps.map Part.text).Sublist (pieces p)) :
    (ofParts ps).text.toList.Sublist p.text.toList := by
  rw [text_ofParts hroot, text_eq p]
  exact Text.intercalate_sublist _ (h.map _)

theorem sublist_of_filterMap (pieces : List String) (h : pieces.filterMap partOf = ps ++ rs) :
    (∀ part ∈ ps, part ≠ .root) ∧ (ps.map Part.text).Sublist pieces := by
  constructor
  · rintro part hpart rfl
    obtain ⟨piece, -, hpiece⟩ := List.mem_filterMap.mp (h ▸ List.mem_append_left rs hpart)
    obtain rfl : "" = piece := text_of_partOf hpiece
    cases hpiece
  · have hnames := Disk.map_text_filterMap pieces
    rw [h, List.map_append] at hnames
    exact (hnames ▸ List.sublist_append_left _ _).trans List.filter_sublist

/-- The first parts of a path, written out, are no longer than the path. -/
theorem ofParts_sublist (h : p.parts = ps ++ rs) :
    (ofParts ps).text.toList.Sublist p.text.toList := by
  rw [parts_eq, front] at h
  split_ifs at h with hroot hpoint
  · cases ps with
    | nil => exact List.nil_sublist _
    | cons first ps =>
      obtain ⟨rfl, hps⟩ := List.cons_eq_cons.mp h
      obtain ⟨rest, rfl⟩ := exists_of_isAbsolute hroot
      rw [pieces_cons_slash] at hps
      obtain ⟨hne, hsub⟩ := sublist_of_filterMap (pieces ⟨rest⟩) hps
      simpa [ofParts] using (sublist_of_pieces hne hsub).cons_cons '/'
  · cases ps with
    | nil => exact List.nil_sublist _
    | cons first ps =>
      obtain ⟨rfl, hps⟩ := List.cons_eq_cons.mp h
      obtain ⟨rest, hrest⟩ := List.head?_eq_some_iff.mp hpoint
      rw [hrest] at hps
      obtain ⟨hne, hsub⟩ := sublist_of_filterMap rest hps
      refine sublist_of_pieces (fun part hpart => ?_) (hrest ▸ hsub.cons_cons ".")
      rcases List.mem_cons.mp hpart with rfl | hpart
      · decide
      · exact hne part hpart
  · obtain ⟨hne, hsub⟩ := sublist_of_filterMap _ h
    exact sublist_of_pieces hne hsub

/-- The last part of a path that is written out is the last piece of it. -/
theorem pieces_ofParts_concat (h : ∀ part ∈ ps, '/' ∉ part.text.toList) (hroot : part ≠ .root)
    (hpart : '/' ∉ part.text.toList) :
    ∃ qs, pieces (ofParts (ps ++ [part])) = qs ++ [part.text] := by
  induction ps with
  | nil =>
    rw [List.nil_append, ofParts_cons hroot]
    exact ⟨[], Disk.pieces_name hpart⟩
  | cons first ps ih =>
    obtain ⟨qs, hqs⟩ := ih fun part hpart => h part (List.mem_cons_of_mem _ hpart)
    have hstep : pieces (ofParts (first :: (ps ++ [part]))) =
        first.text :: pieces (ofParts (ps ++ [part])) := by
      by_cases hfirst : first = .root
      · rw [hfirst]
        exact pieces_cons_slash _
      · rw [ofParts_cons hfirst, if_neg (by simp), Disk.pieces_append_slash,
          Disk.pieces_name (h first List.mem_cons_self)]
        rfl
    exact ⟨first.text :: qs, hstep.trans (congrArg (first.text :: ·) hqs)⟩

/-- The folders around a path are the innermost one and those around it. -/
theorem around_eq (h : p.parts = ps ++ [part]) : p.around = ofParts ps :: (ofParts ps).around := by
  rw [around, around, parts_ofParts h, h, List.reverse_concat, aroundParts, List.reverse_reverse]

end Path

namespace Entry

theorem of_all_isFolder {found : Option Entry} (h : found.all (·.isFolder) = true) :
    found = none ∨ ∃ es, found = some (folder es) := by
  cases found with
  | none => exact Or.inl rfl
  | some e =>
    cases e with
    | file bytes => cases h
    | folder es => exact Or.inr ⟨es, rfl⟩

/-- Whether something other than a folder is at a location depends on what is there only. -/
theorem all_isFolder_shell? (e : Entry) (l : Location) :
    (e.shell? l).all (·.isFolder) = (e.find? l).all (·.isFolder) := by
  rw [shell?, Option.all_map]
  congr 1
  funext f
  cases f <;> rfl

end Entry

namespace Disk
variable {d d' : Disk} {k l : Location} {es : List (String × Entry)} {ps : List String} {p q : Path}
  {piece : String} {qs : List Path}

/-- The folders around a path start where the path does. -/
theorem start_ofParts {ps rs : List Path.Part} (h : p.parts = ps ++ rs) (hne : ps ≠ []) :
    d.start (Path.ofParts ps) = d.start p := by
  have habsolute : (Path.ofParts ps).isAbsolute = p.isAbsolute := by
    rw [Bool.eq_iff_iff, Path.isAbsolute_iff, Path.isAbsolute_iff, Path.parts_ofParts h, h,
      List.head?_append_of_ne_nil _ hne]
  rw [start, start, habsolute]

/-- The path of a folder around another one is `/` or `.`, or it ends in a name. -/
theorem named_ofParts {ps rs : List Path.Part} (h : p.parts = ps ++ rs) :
    names (pieces (Path.ofParts ps)) = [] ∨
      ((pieces (Path.ofParts ps)).filter (· ≠ "")).getLast? ≠ some "." := by
  rcases List.eq_nil_or_concat ps with rfl | ⟨before, last, rfl⟩
  · exact Or.inl rfl
  rw [List.concat_eq_append] at h ⊢
  have hsingle : ∀ part ∈ before ++ [last], '/' ∉ part.text.toList := fun part hpart =>
    Path.single_of_mem_parts (h ▸ List.mem_append_left rs hpart)
  by_cases hstay : last.text ∈ ["", "."]
  · left
    have hfirst : before = [] := by
      by_contra hbefore
      exact (Path.inner_of_parts (h.trans (List.append_assoc ..)) hbefore).text_notMem hstay
    rw [← names_parts, Path.parts_ofParts h, hfirst, List.nil_append, List.map_singleton,
      names_cons, if_pos hstay]
    rfl
  · right
    have hroot : last ≠ .root := by
      rintro rfl
      exact hstay (by decide)
    obtain ⟨qs, hqs⟩ := Path.pieces_ofParts_concat
      (fun part hpart => hsingle part (List.mem_append_left _ hpart)) hroot
      (hsingle last List.mem_concat_self)
    simp only [List.mem_cons, List.not_mem_nil, or_false, not_or] at hstay
    rw [hqs, List.filter_append, List.filter_cons_of_pos (by simpa using hstay.1),
      List.filter_nil, List.getLast?_concat]
    exact fun he => hstay.2 (Option.some.inj he)

/-- The names of a path go down from a folder that is there, and no file is in the way. -/
structure Clear (d : Disk) (p : Path) : Prop where
  followed : ∃ ps, route p = .ok ps
  down : ".." ∉ pieces p
  short : ∀ name ∈ names (pieces p), name.utf8ByteSize ≤ longestName
  /-- A `.` at the end is for a folder that is there already. -/
  named : names (pieces p) = [] ∨ ((pieces p).filter (· ≠ "")).getLast? ≠ some "."
  start : ∃ es, d.root.find? (d.start p) = some (.folder es)
  free : ∀ l, l <+: names (pieces p) → (d.root.find? (d.start p ++ l)).all (·.isFolder) = true

/-- A step to no file leads to where its name says, or to nothing. -/
theorem step_of_free (hup : piece ≠ "..")
    (hshort : ∀ name ∈ names [piece], name.utf8ByteSize ≤ longestName)
    (hfree : (d.root.find? l).all (·.isFolder) = true) :
    d.step l piece = .ok (l ++ names [piece]) ∨ d.step l piece = .error .notFound := by
  rcases Entry.of_all_isFolder hfree with hnone | ⟨es, hes⟩
  · exact Or.inr (by rw [step, entriesAt, hnone]; rfl)
  · by_cases hstay : piece ∈ ["", "."]
    · left
      rw [names_cons, if_pos hstay]
      exact step_eq_ok.mpr ⟨es, hes, Or.inl ⟨by simpa using hstay, List.append_nil l⟩⟩
    · rw [names_cons, if_neg hstay] at hshort ⊢
      have hsize := hshort piece List.mem_cons_self
      have hproper : piece ∉ ["", ".", ".."] := by simp_all
      cases hlook : lookup piece es with
      | some e =>
        exact Or.inl (step_eq_ok.mpr ⟨es, hes, Or.inr (Or.inr
          ⟨hproper, hsize, by rw [hlook, Option.isSome_some], rfl⟩)⟩)
      | none =>
        right
        rw [step, entriesAt_eq_ok.mpr hes]
        simp_all [bind, Except.bind, throw, throwThe, MonadExceptOf.throw, Nat.not_lt.mpr hsize]

/-- A walk on which no file is in the way leads to where its names say, or to nothing. -/
theorem walk_of_free (hup : ".." ∉ ps)
    (hshort : ∀ name ∈ names ps, name.utf8ByteSize ≤ longestName)
    (hfree : ∀ l, l <+: names ps → (d.root.find? (k ++ l)).all (·.isFolder) = true) :
    d.walk k ps = .ok (k ++ names ps) ∨ d.walk k ps = .error .notFound := by
  induction ps using List.reverseRecOn with
  | nil => exact Or.inl (congrArg Except.ok (List.append_nil k).symm)
  | append_singleton ps piece ih =>
    rw [List.mem_append, not_or, List.mem_singleton] at hup
    rw [names_append] at hshort hfree
    have hih := ih hup.1 (fun name hname => hshort name (List.mem_append_left _ hname))
      fun l hl => hfree l (hl.trans (List.prefix_append ..))
    rw [walk_concat, names_append, ← List.append_assoc]
    rcases hih with hwalk | hwalk
    · rw [hwalk]
      exact step_of_free (Ne.symm hup.2) (fun name hname => hshort name
        (List.mem_append_right _ hname)) (hfree _ (List.prefix_append ..))
    · rw [hwalk]
      exact Or.inr rfl

/-- So a name at the end has a place there, if the folder around it is not missing. -/
theorem place_of_free {name : String} {rs : List String} (hup : ".." ∉ ps)
    (hshort : ∀ n ∈ names ps, n.utf8ByteSize ≤ longestName)
    (hfree : ∀ l, l <+: names ps → (d.root.find? (k ++ l)).all (·.isFolder) = true)
    (hname : name ≠ "") (hrs : ∀ r ∈ rs, r = "") :
    d.root.find? (k ++ names ps) = none ∧ d.place k (ps ++ [name] ++ rs) = .error .notFound ∨
      d.place k (ps ++ [name] ++ rs) = .ok ⟨k ++ names ps, name⟩ := by
  rcases Entry.of_all_isFolder (hfree _ (List.prefix_refl _)) with hnone | ⟨es, hes⟩
  · left
    have hentries : d.entriesAt (k ++ names ps) = .error .notFound := by rw [entriesAt, hnone]
    refine ⟨hnone, ?_⟩
    rw [place_append hname hrs]
    rcases walk_of_free hup hshort hfree with hwalk | hwalk <;>
      simp [hwalk, hentries, bind, Except.bind]
  · exact Or.inr ((place_append_iff hname hrs).mpr
      ⟨_, es, walk_of_names hup hshort hes, hes, rfl⟩)

namespace Clear

theorem route_eq (h : d.Clear p) : route p = .ok (pieces p) := by
  obtain ⟨ps, hroute⟩ := h.followed
  rw [hroute, (route_eq_ok hroute).1]

theorem isFolder_of_find? (h : d.Clear p)
    (hl : d.root.find? (d.start p ++ names (pieces p)) = some (.folder es)) :
    d.isFolder p = true :=
  isFolder_iff.mpr ⟨es, readFolder_eq_ok.mpr
    ⟨_, locate_eq_ok.mpr ⟨_, h.route_eq, walk_of_names h.down h.short hl⟩, hl⟩⟩

/-- A path at which there is no folder yet ends in a name. -/
theorem pieces_eq (h : d.Clear p) (habsent : d.isFolder p = false) : ∃ qs name rs,
    pieces p = qs ++ [name] ++ rs ∧ (∀ r ∈ rs, r = "") ∧ name ∉ ["", ".", ".."] ∧
      names (pieces p) = names qs ++ [name] := by
  have hne : names (pieces p) ≠ [] := by
    intro hnil
    obtain ⟨es, hes⟩ := h.start
    have hthere := h.isFolder_of_find? (by rw [hnil, List.append_nil, hes])
    rw [habsent] at hthere
    cases hthere
  have hlast := h.named.resolve_left hne
  rcases pieces_cases (pieces p) with hall | ⟨qs, name, rs, hpieces, hname, hrs⟩
  · exact absurd (names_eq_nil hall) hne
  · have hpoint : name ≠ "." := by
      rintro rfl
      have hnone : rs.filter (· ≠ "") = [] :=
        List.filter_eq_nil_iff.mpr fun r hr => by simp [hrs r hr]
      refine hlast ?_
      rw [hpieces, List.filter_append, hnone, List.append_nil, List.filter_append]
      exact List.getLast?_concat
    have hup : name ≠ ".." := by
      rintro rfl
      exact h.down (by simp [hpieces])
    refine ⟨qs, name, rs, hpieces, hrs, by simp [hname, hpoint, hup], ?_⟩
    rw [hpieces, names_append, names_eq_nil hrs, List.append_nil,
      names_concat (by simp [hname, hpoint])]

/-- A folder that is missing is made, unless the one around it is missing too. -/
theorem makeFolder_cases (h : d.Clear p) (habsent : d.isFolder p = false) :
    (∃ d', d.makeFolder p = .ok d') ∨ d.makeFolder p = .error .notFound ∧
      d.root.find? (d.start p ++ (names (pieces p)).dropLast) = none := by
  obtain ⟨qs, name, rs, hpieces, hrs, hproper, hnames⟩ := h.pieces_eq habsent
  have hup : ".." ∉ qs := fun hmem => h.down (by simp [hpieces, hmem])
  have hshort : ∀ n ∈ names qs, n.utf8ByteSize ≤ longestName := fun n hn =>
    h.short n (hnames ▸ List.mem_append_left _ hn)
  have hfree : ∀ l, l <+: names qs → (d.root.find? (d.start p ++ l)).all (·.isFolder) = true :=
    fun l hl => h.free l (hnames ▸ hl.trans (List.prefix_append ..))
  have hsize : name.utf8ByteSize ≤ longestName := h.short name (hnames ▸ List.mem_concat_self)
  simp only [List.mem_cons, List.not_mem_nil, or_false, not_or] at hproper
  have hroute := h.route_eq
  have hplaces := place_of_free hup hshort hfree hproper.1 hrs
  rw [← hpieces] at hplaces
  rcases hplaces with ⟨hnone, hplace⟩ | hplace
  · right
    rw [hnames, List.dropLast_concat]
    exact ⟨by simp [Disk.makeFolder, hroute, hplace, bind, Except.bind], hnone⟩
  · left
    have hfound : d.found ⟨d.start p ++ names qs, name⟩ = .ok none := by
      rw [found, if_neg (by simp [hproper]), if_neg (by simpa using hsize), List.append_assoc,
        ← hnames]
      rcases Entry.of_all_isFolder (h.free _ (List.prefix_refl _)) with hnone | ⟨fs, hfs⟩
      · rw [hnone]
      · rw [h.isFolder_of_find? hfs] at habsent
        cases habsent
    simp [Disk.makeFolder, hroute, hplace, hfound, bind, Except.bind, pure, Except.pure]

/-- To make folders leaves the way clear. -/
theorem of_made (h : d.Clear p) (hmade : Made qs d d') : d'.Clear p := by
  have hstart : d'.start p = d.start p := by rw [Disk.start, Disk.start, hmade.work_eq]
  obtain ⟨es, hes⟩ := h.start
  refine ⟨h.followed, h.down, h.short, h.named, hstart ▸ hmade.kept.folders _ es hes,
    fun l hl => ?_⟩
  rw [hstart]
  by_cases hsame : d'.root.shell? (d.start p ++ l) = d.root.shell? (d.start p ++ l)
  · rw [← Entry.all_isFolder_shell?, hsame, Entry.all_isFolder_shell?]
    exact h.free l hl
  · rw [← Entry.all_isFolder_shell?, (hmade.change _ hsame).2.1]
    rfl

/-- The way to a folder around a path is clear where the way to the path is. -/
theorem outer {ps rs : List Path.Part} (h : d.Clear p) (hparts : p.parts = ps ++ rs)
    (hne : ps ≠ []) : d.Clear (Path.ofParts ps) := by
  have hown := Path.parts_ofParts hparts
  have hnames : names (pieces (Path.ofParts ps)) <+: names (pieces p) := by
    rw [← names_parts, ← names_parts, hown, hparts, List.map_append, names_append]
    exact List.prefix_append ..
  have hstart : d.start (Path.ofParts ps) = d.start p := start_ofParts hparts hne
  refine ⟨?_, ?_, fun name hname => h.short name (hnames.subset hname), named_ofParts hparts,
    hstart ▸ h.start, fun l hl => hstart ▸ h.free l (hl.trans hnames)⟩
  · obtain ⟨qs, hroute⟩ := h.followed
    refine ⟨_, route_of_sublist hroute (Path.ofParts_sublist hparts) fun htext => hne ?_⟩
    rw [← hown, show Path.ofParts ps = ⟨""⟩ from congrArg Path.mk htext]
    rfl
  · intro hmem
    exact h.down (mem_names.mp (hnames.subset (mem_names.mpr ⟨hmem, by decide⟩))).1

/-- The path that comes first is made, if the folder around it is one of those that come after it
or is there already. -/
theorem makeFolders_cons (h : d.Clear p)
    (houter : d.root.find? (d.start p ++ (names (pieces p)).dropLast) = none →
      (d.makeFolders qs).1 = .ok () ∧ ∃ es,
        (d.makeFolders qs).2.root.find? (d.start p ++ (names (pieces p)).dropLast) =
          some (.folder es)) :
    (d.makeFolders (p :: qs)).1 = .ok () ∧ (d.makeFolders (p :: qs)).2.isFolder p = true := by
  cases hthere : d.isFolder p with
  | true =>
    rw [makeFolders_of_isFolder hthere]
    exact ⟨rfl, hthere⟩
  | false =>
    rcases h.makeFolder_cases hthere with ⟨d', hmake⟩ | ⟨hmissing, hnone⟩
    · rw [makeFolders, hmake]
      exact ⟨rfl, isFolder_iff.mpr ⟨_, readFolder_of_makeFolder hmake⟩⟩
    · obtain ⟨hok, es, hes⟩ := houter hnone
      have hclear := h.of_made (made_makeFolders qs d)
      have hstart := start_makeFolders d qs p
      rw [makeFolders, hmissing]
      generalize d.makeFolders qs = made at hok hes hclear hstart
      obtain ⟨answer, d'⟩ := made
      cases hok
      cases hafter : d'.isFolder p with
      | true => simp [makeFolder_of_isFolder hafter, hafter]
      | false =>
        rcases hclear.makeFolder_cases hafter with ⟨d'', hmake⟩ | ⟨-, hgone⟩
        · simp [hmake, isFolder_iff.mpr ⟨_, readFolder_of_makeFolder hmake⟩]
        · rw [hstart, hes] at hgone
          cases hgone

/-- A path whose folder is missing has more than one part, and all but the last lead to this
folder. -/
theorem exists_outer (h : d.Clear p)
    (hnone : d.root.find? (d.start p ++ (names (pieces p)).dropLast) = none) :
    ∃ ps part, p.parts = ps ++ [part] ∧ ps ≠ [] ∧
      names (pieces (Path.ofParts ps)) = (names (pieces p)).dropLast := by
  have hlong : (names (pieces p)).dropLast ≠ [] := by
    intro hnil
    obtain ⟨es, hes⟩ := h.start
    rw [hnil, List.append_nil, hes] at hnone
    cases hnone
  rw [← names_parts] at hlong ⊢
  rcases List.eq_nil_or_concat p.parts with hnil | ⟨ps, part, hparts⟩
  · rw [hnil] at hlong
    exact absurd rfl hlong
  · rw [List.concat_eq_append] at hparts
    have hne : ps ≠ [] := by
      rintro rfl
      rw [hparts, List.nil_append, List.map_singleton, names_cons] at hlong
      split_ifs at hlong <;> exact absurd rfl hlong
    refine ⟨ps, part, hparts, hne, ?_⟩
    rw [← names_parts, Path.parts_ofParts hparts, hparts, List.map_append, List.map_singleton,
      names_concat (Path.inner_of_parts hparts hne).text_notMem, List.dropLast_concat]

end Clear

/-- Where the way is clear, a folder can be made together with the folders around it. -/
theorem makeAll_of_clear {p : Path} (h : d.Clear p) :
    (d.makeAll p).1 = .ok () ∧ (d.makeAll p).2.isFolder p = true := by
  have htext : (!p.text.isEmpty) = true := by simpa using (route_eq_ok h.route_eq).2
  rw [makeAll, List.filter_cons_of_pos (by exact htext)]
  refine h.makeFolders_cons fun hnone => ?_
  obtain ⟨ps, part, hparts, hne, hnames⟩ := h.exists_outer hnone
  have hclear := h.outer hparts hne
  obtain ⟨hok, hfolder⟩ := makeAll_of_clear hclear
  obtain ⟨es, hes⟩ := find?_of_isFolder hfolder hclear.down
  rw [hnames, makeAll, start_makeFolders, start_ofParts hparts hne] at hes
  rw [Path.around_eq hparts]
  exact ⟨hok, es, hes⟩
termination_by p.parts.length
decreasing_by
  rw [Path.parts_ofParts hparts, hparts, List.length_append]
  exact Nat.lt_succ_self _

end Disk
end StylePack
