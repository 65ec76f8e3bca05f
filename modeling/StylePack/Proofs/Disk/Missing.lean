import StylePack.Proofs.Path

/-! Folders that are missing. To make a folder makes no other one (`folder_of_makeFolder`), and the
folders around a path lie further out than the one it names (`around_outer`). So a folder that was
missing is empty once it is made (`readFolder_of_makeAll`). -/
namespace StylePack
open OrderedMap (lookup)

namespace Entry
variable {e : Entry} {k l : Location} {es : List (String × Entry)} {name : String}

/-- The only folder that is new where an empty folder was put is this one. -/
theorem folder_of_put (h : (e.put l name (.folder [])).find? k = some (.folder es))
    (hk : k ≠ l ++ [name]) : ∃ fs, e.find? k = some (.folder fs) := by
  rw [put] at h
  induction l generalizing e k with
  | nil =>
    cases e with
    | file bytes => exact ⟨es, h⟩
    | folder gs =>
      cases k with
      | nil => exact ⟨gs, find?_nil _⟩
      | cons m k =>
        rw [edit, find?_folder_cons] at h
        by_cases hm : m = name
        · subst hm
          rw [OrderedMap.lookup_write_self, Option.bind_some] at h
          cases k with
          | nil => exact absurd rfl hk
          | cons n k => cases h
        · rw [OrderedMap.lookup_write_ne _ hm] at h
          exact ⟨es, h⟩
  | cons n l ih =>
    cases e with
    | file bytes => exact ⟨es, h⟩
    | folder gs =>
      cases k with
      | nil => exact ⟨gs, find?_nil _⟩
      | cons m k =>
        by_cases hm : m = n
        · subst hm
          rw [find?_edit_cons_self] at h
          obtain ⟨g, hg, hgk⟩ := Option.bind_eq_some_iff.mp h
          obtain ⟨fs, hfs⟩ := ih hgk fun he => hk (congrArg (m :: ·) he)
          exact ⟨fs, by rw [find?_folder_cons, hg, Option.bind_some, hfs]⟩
        · rw [find?_edit_cons_ne hm] at h
          exact ⟨es, h⟩

end Entry

namespace Disk
variable {d d' : Disk} {k l : Location} {es : List (String × Entry)} {ps : List String}
  {p q : Path}

/-- The names that pieces go down by. -/
def names (ps : List String) : List String := ps.filter (· ∉ ["", "."])

theorem mem_names {name : String} : name ∈ names ps ↔ name ∈ ps ∧ name ∉ ["", "."] := by
  rw [names, List.mem_filter, decide_eq_true_iff]

theorem names_append (ps qs : List String) : names (ps ++ qs) = names ps ++ names qs :=
  List.filter_append ..

theorem names_cons (piece : String) (ps : List String) :
    names (piece :: ps) = if piece ∈ ["", "."] then names ps else piece :: names ps := by
  rw [names, List.filter_cons]
  by_cases h : piece ∈ ["", "."]
  · rw [if_pos h, if_neg (by simpa only [decide_eq_true_iff, not_not] using h), names]
  · rw [if_neg h, if_pos (decide_eq_true h), names]

theorem names_concat_stay {piece : String} (h : piece ∈ ["", "."]) (ps : List String) :
    names (ps ++ [piece]) = names ps := by
  rw [names_append, names_cons, if_pos h]
  exact List.append_nil _

theorem names_concat {piece : String} (h : piece ∉ ["", "."]) (ps : List String) :
    names (ps ++ [piece]) = names ps ++ [piece] := by
  rw [names_append, names_cons, if_neg h]
  rfl

theorem names_names (ps : List String) : names (names ps) = names ps := by
  rw [names, names, List.filter_filter]
  simp only [Bool.and_self]

theorem names_eq_nil (h : ∀ q ∈ ps, q = "") : names ps = [] := by
  refine List.filter_eq_nil_iff.mpr fun q hq => ?_
  simp [h q hq]

/-- Where nothing leads out of a folder, pieces lead to where their names say. -/
theorem walk_eq_names (h : d.walk k ps = .ok l) (hup : ".." ∉ ps) : l = k ++ names ps := by
  induction ps using List.reverseRecOn generalizing l with
  | nil =>
    cases h
    exact (List.append_nil k).symm
  | append_singleton ps piece ih =>
    rw [walk_concat, bind_eq_ok] at h
    obtain ⟨m, hm, hstep⟩ := h
    obtain ⟨fs, -, hcases⟩ := step_eq_ok.mp hstep
    rw [List.mem_append, not_or, List.mem_singleton] at hup
    rcases hcases with ⟨hstay, rfl⟩ | ⟨hout, -⟩ | ⟨hname, -, -, rfl⟩
    · rw [names_concat_stay (by simpa using hstay), ← ih hm hup.1]
    · exact absurd hout.symm hup.2
    · rw [names_concat (by simp_all), ← List.append_assoc, ← ih hm hup.1]

/-- The names that pieces went down by are short enough. -/
theorem short_of_walk (h : d.walk k ps = .ok l) :
    ∀ name ∈ names ps, name.utf8ByteSize ≤ longestName := by
  induction ps using List.reverseRecOn generalizing l with
  | nil => exact fun name hname => absurd hname List.not_mem_nil
  | append_singleton ps piece ih =>
    rw [walk_concat, bind_eq_ok] at h
    obtain ⟨m, hm, hstep⟩ := h
    obtain ⟨fs, -, hcases⟩ := step_eq_ok.mp hstep
    intro name hname
    by_cases hstay : piece ∈ ["", "."]
    · rw [names_concat_stay hstay] at hname
      exact ih hm name hname
    · rw [names_concat hstay, List.mem_append, List.mem_singleton] at hname
      rcases hname with hname | rfl
      · exact ih hm name hname
      · rcases hcases with ⟨hname, -⟩ | ⟨rfl, -⟩ | ⟨-, hsize, -⟩
        · exact absurd (by simpa using hname) hstay
        · decide
        · exact hsize

/-- Names that lead to a folder are a way to it. -/
theorem walk_of_names (hup : ".." ∉ ps)
    (hshort : ∀ name ∈ names ps, name.utf8ByteSize ≤ longestName)
    (hl : d.root.find? (k ++ names ps) = some (.folder es)) :
    d.walk k ps = .ok (k ++ names ps) := by
  induction ps using List.reverseRecOn generalizing es with
  | nil => rw [names, List.filter_nil, List.append_nil]; rfl
  | append_singleton ps piece ih =>
    rw [List.mem_append, not_or, List.mem_singleton] at hup
    have hbefore : ∀ name ∈ names ps, name.utf8ByteSize ≤ longestName := fun name hname =>
      hshort name (names_append ps [piece] ▸ List.mem_append_left _ hname)
    rw [walk_concat, bind_eq_ok]
    refine ⟨k ++ names ps, ?_⟩
    by_cases hstay : piece ∈ ["", "."]
    · rw [names_concat_stay hstay] at hl ⊢
      exact ⟨ih hup.1 hbefore hl, step_eq_ok.mpr ⟨es, hl, Or.inl ⟨by simpa using hstay, rfl⟩⟩⟩
    · rw [names_concat hstay, ← List.append_assoc] at hl ⊢
      rw [Entry.find?_append] at hl
      obtain ⟨f, hf, hfl⟩ := Option.bind_eq_some_iff.mp hl
      obtain ⟨fs, rfl⟩ := Entry.isFolder_of_find? hfl
      obtain ⟨g, hg, -⟩ := Option.bind_eq_some_iff.mp hfl
      have hproper : piece ∉ ["", ".", ".."] := by
        simp only [List.mem_cons, List.not_mem_nil, or_false, not_or] at hstay ⊢
        exact ⟨hstay.1, hstay.2, Ne.symm hup.2⟩
      have hsize : piece.utf8ByteSize ≤ longestName :=
        hshort piece (names_concat hstay ps ▸ List.mem_concat_self)
      exact ⟨ih hup.1 hbefore hf, step_eq_ok.mpr
        ⟨fs, hf, Or.inr (Or.inr ⟨hproper, hsize, by rw [hg, Option.isSome_some], rfl⟩)⟩⟩

/-- Pieces that lead to a folder of one disk lead to it on another disk that has it. -/
theorem walk_of_find? (h : d'.walk k ps = .ok l) (hup : ".." ∉ ps)
    (hl : d.root.find? l = some (.folder es)) : d.walk k ps = .ok l := by
  have hnames := walk_eq_names h hup
  subst hnames
  exact walk_of_names hup (short_of_walk h) hl

/-- A folder is where its names say. -/
theorem find?_of_isFolder (h : d.isFolder p = true) (hup : ".." ∉ pieces p) :
    ∃ es, d.root.find? (d.start p ++ names (pieces p)) = some (.folder es) := by
  obtain ⟨es, hread⟩ := isFolder_iff.mp h
  obtain ⟨l, hlocate, hl⟩ := readFolder_eq_ok.mp hread
  obtain ⟨ps, hroute, hwalk⟩ := locate_eq_ok.mp hlocate
  obtain ⟨rfl, -⟩ := route_eq_ok hroute
  exact ⟨es, walk_eq_names hwalk hup ▸ hl⟩

/-- To make a folder makes no other folder. -/
theorem folder_of_makeFolder (h : d.makeFolder q = .ok d') (hup : ".." ∉ pieces q)
    (hk : d.start q ++ names (pieces q) ≠ k) (hfolder : d'.root.find? k = some (.folder es)) :
    ∃ fs, d.root.find? k = some (.folder fs) := by
  obtain ⟨ps, name, rs, l, gs, hroute, hrs, hproper, -, hwalk, -, -, rfl⟩ := makeFolder_eq_ok h
  rw [← (route_eq_ok hroute).1] at hup hk
  have hl : l = d.start q ++ names ps := walk_eq_names hwalk fun hmem => hup (by simp [hmem])
  have hnames : d.start q ++ names (ps ++ [name] ++ rs) = l ++ [name] := by
    rw [names_append, names_eq_nil hrs, List.append_nil, names_concat (by simp_all),
      ← List.append_assoc, ← hl]
  exact Entry.folder_of_put hfolder fun he => hk (hnames.trans he.symm)

theorem folder_of_makeFolders {qs : List Path} (hup : ∀ q ∈ qs, ".." ∉ pieces q)
    (hk : ∀ q ∈ qs, d.start q ++ names (pieces q) ≠ k)
    (h : (d.makeFolders qs).2.root.find? k = some (.folder es)) :
    ∃ fs, d.root.find? k = some (.folder fs) := by
  refine (makeFolders_induction (motive := fun e => e.work = d.work ∧
    ∀ es, e.root.find? k = some (.folder es) → ∃ fs, d.root.find? k = some (.folder fs))
    ⟨rfl, fun es hes => ⟨es, hes⟩⟩ ?_).2 es h
  rintro e e' q hq ⟨hwork, hfolder⟩ hmake
  refine ⟨(work_makeFolder hmake).trans hwork, fun es hes => ?_⟩
  have hne : e.start q ++ names (pieces q) ≠ k := by
    rw [start, hwork]
    exact hk q hq
  obtain ⟨fs, hfs⟩ := folder_of_makeFolder hmake (hup q hq) hne hes
  exact hfolder fs hfs

theorem map_text_filterMap (ps : List String) :
    (ps.filterMap Path.partOf).map Path.Part.text = names ps := by
  induction ps with
  | nil => rfl
  | cons piece ps ih =>
    rw [names_cons]
    by_cases hstay : piece ∈ ["", "."]
    · rw [List.filterMap_cons_none (Path.partOf_stay hstay), if_pos hstay, ih]
    · obtain ⟨part, hpart, htext⟩ := Path.exists_partOf hstay
      rw [List.filterMap_cons_some hpart, if_neg hstay, List.map_cons, htext, ih]

/-- The parts of a path go down by the same names as the path. -/
theorem names_parts (p : Path) : names (p.parts.map Path.Part.text) = names (pieces p) := by
  have hfront : names (p.front.map Path.Part.text) = [] := by
    rcases Path.front_cases p with hfront | hfront | hfront <;> rw [hfront] <;> rfl
  rw [Path.parts_eq, List.map_append, names_append, hfront, map_text_filterMap, names_names]
  rfl

/-- The folders around a path lie further out than the one it names. -/
theorem around_outer (hq : q ∈ p.around) (htext : q.text ≠ "") : q.isAbsolute = p.isAbsolute ∧
    ∃ name rest, names (pieces p) = names (pieces q) ++ name :: rest := by
  obtain ⟨habsolute, part, rs, hparts, hinner⟩ := Path.parts_of_mem_around hq htext
  refine ⟨habsolute, part.text, names (rs.map Path.Part.text), ?_⟩
  rw [← names_parts, hparts, List.map_append, names_append, names_parts, List.map_cons, names_cons,
    if_neg hinner.text_notMem]

/-- The folders around a path can be made without making the folder it names. -/
theorem isFolder_makeFolders_around (habsent : d.isFolder p = false) (hup : ".." ∉ pieces p)
    {qs : List Path} (hqs : ∀ q ∈ qs, q ∈ p.around ∧ q.text ≠ "") :
    (d.makeFolders qs).2.isFolder p = false := by
  by_contra hfolder
  obtain ⟨es, hes⟩ := isFolder_iff.mp (Bool.not_eq_false _ ▸ hfolder)
  obtain ⟨l, hlocate, hl⟩ := readFolder_eq_ok.mp hes
  obtain ⟨ps, hroute, hwalk⟩ := locate_eq_ok.mp hlocate
  obtain ⟨rfl, -⟩ := route_eq_ok hroute
  rw [start_makeFolders] at hwalk
  have hnames : l = d.start p ++ names (pieces p) := walk_eq_names hwalk hup
  have houter : ∀ q ∈ qs, ".." ∉ pieces q ∧ d.start q ++ names (pieces q) ≠ l := by
    intro q hq
    obtain ⟨habsolute, name, rest, hrest⟩ := around_outer (hqs q hq).1 (hqs q hq).2
    refine ⟨fun hmem => hup ?_, fun he => ?_⟩
    · have hname : ".." ∈ names (pieces q) := mem_names.mpr ⟨hmem, by decide⟩
      exact (mem_names.mp (hrest ▸ List.mem_append_left _ hname)).1
    · rw [hnames, hrest, start, start, habsolute, List.append_cancel_left_eq] at he
      simp at he
  obtain ⟨fs, hfs⟩ := folder_of_makeFolders (fun q hq => (houter q hq).1)
    (fun q hq => (houter q hq).2) hl
  have hthere := isFolder_iff.mpr ⟨fs, readFolder_eq_ok.mpr
    ⟨l, locate_eq_ok.mpr ⟨_, hroute, walk_of_find? hwalk hup hfs⟩, hfs⟩⟩
  rw [habsent] at hthere
  cases hthere

/-- A folder that was missing is empty once it is made together with the folders around it. -/
theorem readFolder_of_makeAll (habsent : d.isFolder p = false) (htext : p.text ≠ "")
    (hup : ".." ∉ pieces p) (hmade : (d.makeAll p).1 = .ok ()) :
    (d.makeAll p).2.readFolder p = .ok [] := by
  have hkeep : (!p.text.isEmpty) = true := by simpa using htext
  have houter : (d.makeFolders (p.around.filter (!·.text.isEmpty))).2.isFolder p = false :=
    isFolder_makeFolders_around habsent hup fun q hq => by simpa using hq
  rw [makeAll, List.filter_cons_of_pos (by exact hkeep), makeFolders] at hmade ⊢
  split at hmade
  · rename_i hmake
    exact readFolder_of_makeFolder hmake
  · split at hmade
    · cases hmade
    · rename_i hmakes
      rw [hmakes] at houter
      split at hmade
      · rename_i hmake
        exact readFolder_of_makeFolder hmake
      · simp [houter] at hmade
  · simp [habsent] at hmade

end Disk
end StylePack
