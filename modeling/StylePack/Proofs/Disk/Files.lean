import Mathlib.Data.List.Basic
import Mathlib.Data.String.Basic
import StylePack.Proofs.Disk.Folders
import StylePack.Proofs.OrderedMap
import StylePack.Proofs.Text.Cut

/-! Files by their names in a folder. A path into a folder is followed by one more step
(`walk_join`). So to write or to remove a file changes the entry of its name, and leaves the folder
at its path (`writeFile_join`, `removeFile_join`). Whatever folder a file was written to, it is
there afterwards (`entry?_of_writeFile`). -/
namespace StylePack.Disk
open OrderedMap (lookup write)
variable {d d' : Disk} {folder p : Path} {name : String} {l m : Location}
  {es : List (String × Entry)} {bytes : ByteArray}

/-- A name that stands for an entry of a folder. -/
structure IsPlain (name : String) : Prop where
  single : '/' ∉ name.toList
  proper : name ∉ ["", ".", ".."]

instance (name : String) : Decidable (IsPlain name) :=
  decidable_of_iff ('/' ∉ name.toList ∧ name ∉ ["", ".", ".."])
    ⟨fun h => ⟨h.1, h.2⟩, fun h => ⟨h.single, h.proper⟩⟩

/-- A path and a name in it are short enough to be taken by the file system. -/
structure Accepts (folder : Path) (name : String) : Prop where
  short : name.utf8ByteSize ≤ longestName
  followed : ∃ ps, route (folder.join ⟨name⟩) = .ok ps

/-- A name under which a folder can hold an entry. -/
structure Fits (folder : Path) (name : String) : Prop extends IsPlain name, Accepts folder name

theorem join_eq (hfolder : folder.text ≠ "") (h : '/' ∉ name.toList) :
    folder.join ⟨name⟩ = if folder.text.toList.getLast? = some '/' then ⟨folder.text ++ name⟩
      else ⟨folder.text ++ "/" ++ name⟩ := by
  rw [Path.join, if_neg]
  rw [String.isEmpty_iff, not_or]
  exact ⟨fun ha => h (List.mem_of_mem_head? (of_decide_eq_true ha)), hfolder⟩

/-- A path and the paths of what is in its folder start at the same place. -/
theorem isAbsolute_join (h : '/' ∉ name.toList) :
    (folder.join ⟨name⟩).isAbsolute = folder.isAbsolute := by
  by_cases hfolder : folder.text = ""
  · have hjoin : folder.join ⟨name⟩ = ⟨name⟩ := if_pos (Or.inr (String.isEmpty_iff.mpr hfolder))
    have hname : (Path.mk name).isAbsolute = false :=
      decide_eq_false fun hhead => h (List.mem_of_mem_head? hhead)
    rw [hjoin, hname, Path.isAbsolute, hfolder]
    rfl
  · have hne : folder.text.toList ≠ [] := fun he => hfolder (String.toList_eq_nil_iff.mp he)
    rw [join_eq hfolder h, Path.isAbsolute, Path.isAbsolute]
    split_ifs <;>
      simp only [String.toList_append, List.append_assoc, List.head?_append_of_ne_nil _ hne]

theorem start_join (h : '/' ∉ name.toList) : d.start (folder.join ⟨name⟩) = d.start folder := by
  rw [start, start, isAbsolute_join h]

theorem pieces_name (h : '/' ∉ name.toList) : pieces ⟨name⟩ = [name] := by
  have hcut : Text.splitWhere (· == '/') name.toList = [name.toList] :=
    Text.splitWhere_of_forall fun c hc => beq_eq_false_iff_ne.mpr fun he => h (he ▸ hc)
  rw [pieces, hcut, List.map_singleton, String.ofList_toList]

theorem pieces_append_slash (text rest : String) :
    pieces ⟨text ++ "/" ++ rest⟩ = pieces ⟨text⟩ ++ pieces ⟨rest⟩ := by
  simp [pieces, Text.splitWhere_append_cons]

theorem pieces_join (hfolder : folder.text ≠ "") (h : '/' ∉ name.toList) :
    ∃ ps qs, pieces folder = ps ++ qs ∧ (∀ q ∈ qs, q = "") ∧
      pieces (folder.join ⟨name⟩) = ps ++ [name] := by
  rw [join_eq hfolder h]
  by_cases hslash : folder.text.toList.getLast? = some '/'
  · obtain ⟨cs, hcs⟩ := List.getLast?_eq_some_iff.mp hslash
    have htext : folder.text = String.ofList cs ++ "/" := by
      rw [← String.toList_inj, hcs]
      simp
    refine ⟨pieces ⟨String.ofList cs⟩, [""], ?_, by simp, ?_⟩
    · have hfolder' : folder = ⟨String.ofList cs ++ "/" ++ ""⟩ :=
        congrArg Path.mk (htext.trans String.append_empty.symm)
      rw [hfolder', pieces_append_slash]
      rfl
    · rw [if_pos hslash, htext, pieces_append_slash, pieces_name h]
  · refine ⟨pieces folder, [], by simp, by simp, ?_⟩
    rw [if_neg hslash, pieces_append_slash, pieces_name h]

/-- The path of a file goes to the folder and then takes one step. -/
theorem walk_join (h : d.locate folder = .ok l) (hname : '/' ∉ name.toList) :
    ∃ ps, d.walk (d.start (folder.join ⟨name⟩)) ps = .ok l ∧
      pieces (folder.join ⟨name⟩) = ps ++ [name] := by
  obtain ⟨rs, hroute, hwalk⟩ := locate_eq_ok.mp h
  obtain ⟨rfl, htext⟩ := route_eq_ok hroute
  obtain ⟨ps, qs, hfolder, hqs, hjoin⟩ := pieces_join htext hname
  rw [hfolder] at hwalk
  rw [start_join hname]
  exact ⟨ps, walk_of_append_empty hqs hwalk, hjoin⟩

/-- A path that is no longer than one that can be followed can be followed. -/
theorem route_of_sublist {q : Path} {ps : List String} (h : route p = .ok ps)
    (hsub : q.text.toList.Sublist p.text.toList) (hq : q.text ≠ "") :
    route q = .ok (pieces q) := by
  have hle := String.utf8Len_le_of_sublist hsub
  rw [← String.utf8ByteSize_ofList, ← String.utf8ByteSize_ofList, String.ofList_toList,
    String.ofList_toList] at hle
  unfold route at h ⊢
  split_ifs at h with hnul hsize
  rw [List.contains_iff_mem] at hnul
  rw [if_neg (fun hmem => hnul (hsub.subset (List.contains_iff_mem.mp hmem))), if_neg (by omega),
    if_neg (by simpa using hq)]
  rfl

theorem route_of_append {ps : List String} {rest : String} (h : route ⟨p.text ++ rest⟩ = .ok ps)
    (hp : p.text ≠ "") : route p = .ok (pieces p) :=
  route_of_sublist h (by simp) hp

/-- The folder of a path that can be followed can be followed. -/
theorem route_of_join {ps : List String} (h : route (folder.join ⟨name⟩) = .ok ps)
    (hfolder : folder.text ≠ "") (hname : '/' ∉ name.toList) :
    route folder = .ok (pieces folder) := by
  rw [join_eq hfolder hname] at h
  split_ifs at h
  · exact route_of_append h hfolder
  · rw [String.append_assoc] at h
    exact route_of_append h hfolder

/-- A step by a plain name goes to the entry of that name. -/
theorem step_of_isPlain (hname : IsPlain name) (h : d.step l name = .ok m) :
    ∃ es, d.root.find? l = some (.folder es) ∧ (lookup name es).isSome ∧ m = l ++ [name] := by
  have hproper := hname.proper
  simp only [List.mem_cons, List.not_mem_nil, or_false, not_or] at hproper
  obtain ⟨es, hes, hcases⟩ := step_eq_ok.mp h
  rcases hcases with ⟨hstay, -⟩ | ⟨hup, -⟩ | ⟨-, -, hsome, hm⟩
  · exact absurd hstay (by simp [hproper])
  · exact absurd hup hproper.2.2
  · exact ⟨es, hes, hsome, hm⟩

/-- A path leads to a location. The empty path is that of the working folder. -/
def Leads (d : Disk) (p : Path) (l : Location) : Prop :=
  if p.text = "" then l = d.work else d.locate p = .ok l

/-- The way to a file goes through its folder, whatever the path of the folder is. -/
theorem leads_of_locate_join (h : d.locate (folder.join ⟨name⟩) = .ok m) (hname : IsPlain name) :
    ∃ l es, d.Leads folder l ∧ d.root.find? l = some (.folder es) ∧ (lookup name es).isSome ∧
      m = l ++ [name] := by
  obtain ⟨rs, hroute, hwalk⟩ := locate_eq_ok.mp h
  rw [(route_eq_ok hroute).1, start_join hname.single] at hwalk
  by_cases hfolder : folder.text = ""
  · have hjoin : folder.join ⟨name⟩ = ⟨name⟩ := if_pos (Or.inr (String.isEmpty_iff.mpr hfolder))
    have hstart : d.start folder = d.work := by
      rw [start, Path.isAbsolute, hfolder]
      rfl
    rw [hjoin, pieces_name hname.single, hstart] at hwalk
    obtain ⟨l, hl, hstep⟩ := bind_eq_ok.mp ((walk_concat d d.work [] name).symm.trans hwalk)
    cases hl
    obtain ⟨es, hes⟩ := step_of_isPlain hname hstep
    exact ⟨d.work, es, by rw [Leads, if_pos hfolder], hes⟩
  · obtain ⟨ps, qs, hpieces, hqs, hps⟩ := pieces_join hfolder hname.single
    rw [hps, walk_concat, bind_eq_ok] at hwalk
    obtain ⟨l, hl, hstep⟩ := hwalk
    obtain ⟨es, hes, hentry⟩ := step_of_isPlain hname hstep
    refine ⟨l, es, ?_, hes, hentry⟩
    rw [Leads, if_neg hfolder]
    refine locate_eq_ok.mpr ⟨_, route_of_join hroute hfolder hname.single, ?_⟩
    rw [hpieces]
    exact walk_append_empty hqs hl hes

/-- Where the path of a file leads to, if it leads anywhere. -/
theorem locate_join (h : d.locate folder = .ok l) (hl : d.root.find? l = some (.folder es))
    (hname : IsPlain name) (hjoin : d.locate (folder.join ⟨name⟩) = .ok m) :
    (lookup name es).isSome ∧ m = l ++ [name] := by
  obtain ⟨rs, hroute, -⟩ := locate_eq_ok.mp h
  obtain ⟨k, fs, hleads, hk, hsome, hm⟩ := leads_of_locate_join hjoin hname
  rw [Leads, if_neg (route_eq_ok hroute).2, h] at hleads
  cases hleads
  rw [hl] at hk
  cases hk
  exact ⟨hsome, hm⟩

theorem locate_join_of_lookup (h : d.locate folder = .ok l)
    (hl : d.root.find? l = some (.folder es)) (hname : Fits folder name)
    (hsome : (lookup name es).isSome) :
    d.locate (folder.join ⟨name⟩) = .ok (l ++ [name]) := by
  obtain ⟨ps, hps, hpieces⟩ := walk_join h hname.single
  obtain ⟨rs, hroute⟩ := hname.followed
  refine locate_eq_ok.mpr ⟨rs, hroute, ?_⟩
  rw [(route_eq_ok hroute).1, hpieces, walk_concat, hps]
  exact step_eq_ok.mpr ⟨es, hl, Or.inr (Or.inr ⟨hname.proper, hname.short, hsome, rfl⟩)⟩

/-- A file in a folder is an entry of it. -/
theorem lookup_of_isFile_join (h : d.readFolder folder = .ok es) (hname : IsPlain name)
    (hfile : d.isFile (folder.join ⟨name⟩) = true) :
    ∃ bytes, lookup name es = some (.file bytes) := by
  obtain ⟨l, hlocate, hl⟩ := readFolder_eq_ok.mp h
  rw [isFile, entry?] at hfile
  cases hjoin : d.locate (folder.join ⟨name⟩) with
  | error r => simp [hjoin] at hfile
  | ok m =>
    obtain ⟨-, rfl⟩ := locate_join hlocate hl hname hjoin
    rw [hjoin] at hfile
    simp only [find?_concat hl] at hfile
    cases hlook : lookup name es with
    | none => simp [hlook] at hfile
    | some e =>
      cases e with
      | file bytes => exact ⟨bytes, rfl⟩
      | folder fs => simp [hlook, Entry.isFolder] at hfile

theorem isFile_join (h : d.readFolder folder = .ok es) (hname : Fits folder name)
    (hlook : lookup name es = some (.file bytes)) : d.isFile (folder.join ⟨name⟩) = true := by
  obtain ⟨l, hlocate, hl⟩ := readFolder_eq_ok.mp h
  have hjoin := locate_join_of_lookup hlocate hl hname (by rw [hlook]; rfl)
  rw [isFile, entry?_of_locate hjoin, find?_concat hl, hlook]
  rfl

/-- No file is in a folder that is not there. -/
theorem isFile_join_of_absent (hfolder : folder.text ≠ "") (habsent : d.entry? folder = none)
    (hname : IsPlain name) : d.isFile (folder.join ⟨name⟩) = false := by
  rw [isFile, entry?]
  cases hjoin : d.locate (folder.join ⟨name⟩) with
  | error r => rfl
  | ok m =>
    exfalso
    obtain ⟨l, es, hleads, hes, -⟩ := leads_of_locate_join hjoin hname
    rw [Leads, if_neg hfolder] at hleads
    rw [entry?_of_locate hleads, hes] at habsent
    cases habsent

/-- A file that is written is in the folder, and its path leads to the folder as before. -/
theorem writeFile_join (h : d.readFolder folder = .ok es) (hname : Fits folder name)
    (hfree : ∀ fs, lookup name es ≠ some (.folder fs)) (bytes : ByteArray) :
    ∃ d', d.writeFile (folder.join ⟨name⟩) bytes = .ok d' ∧
      d'.readFolder folder = .ok (write name (.file bytes) es) := by
  obtain ⟨l, hlocate, hl⟩ := readFolder_eq_ok.mp h
  obtain ⟨ps, hps, hpieces⟩ := walk_join hlocate hname.single
  obtain ⟨rs, hroute⟩ := hname.followed
  have hproper := hname.proper
  simp only [List.mem_cons, List.not_mem_nil, or_false, not_or] at hproper
  have hplace : d.place (d.start (folder.join ⟨name⟩)) (ps ++ [name]) = .ok ⟨l, name⟩ := by
    rw [← List.append_nil (ps ++ [name]), place_append_iff hproper.1 (by simp)]
    exact ⟨l, es, hps, hl, rfl⟩
  have hfound : d.found ⟨l, name⟩ = .ok (lookup name es) := by
    rw [found, if_neg (by simp [hproper]), if_neg (by simpa using hname.short), find?_concat hl]
  refine ⟨d.put l name (.file bytes), ?_, ?_⟩
  · have hlast : ¬ (ps ++ [name]).getLast? = some "" := by simpa using hproper.1
    rw [(route_eq_ok hroute).1, hpieces] at hroute
    simp only [writeFile, hroute, hplace, hfound, bind, Except.bind, if_neg hlast]
    cases hlook : lookup name es with
    | none => rfl
    | some e =>
      cases e with
      | file b => rfl
      | folder fs => exact absurd hlook (hfree fs)
  · exact readFolder_edit hlocate hl fun k fs hk => Entry.lookup_write_of_free hfree _ hk

/-- What it takes to write a file, and what it changes. -/
theorem writeFile_eq_ok (h : d.writeFile p bytes = .ok d') : ∃ ps name l es,
    route p = .ok (ps ++ [name]) ∧ name ∉ ["", ".", ".."] ∧ name.utf8ByteSize ≤ longestName ∧
      d.walk (d.start p) ps = .ok l ∧ d.root.find? l = some (.folder es) ∧
        (∀ fs, lookup name es ≠ some (.folder fs)) ∧ d' = d.put l name (.file bytes) := by
  obtain ⟨ps, hroute, hwrite⟩ := bind_eq_ok.mp h
  obtain ⟨target, hplace, hwrite⟩ := bind_eq_ok.mp hwrite
  split_ifs at hwrite with hlast
  · cases hwrite
  obtain ⟨e, hfound, hwrite⟩ := bind_eq_ok.mp hwrite
  rcases pieces_cases ps with hall | ⟨qs, name, rs, rfl, hname, hrs⟩
  · obtain ⟨-, rfl⟩ := (place_empty_iff hall).mp hplace
    cases hfound
    cases hwrite
  · obtain ⟨l, es, hwalk, hl, rfl⟩ := (place_append_iff hname hrs).mp hplace
    -- a path with a slash at its end is refused
    have hnone : rs = [] := by
      by_contra hne
      have hempty := hrs _ (List.getLast_mem hne)
      rw [List.getLast?_append, List.getLast?_eq_some_getLast hne, hempty, Option.some_or] at hlast
      exact hlast rfl
    subst hnone
    rw [List.append_nil] at hroute
    unfold found at hfound
    split_ifs at hfound with hdots hsize
    · cases hfound
      cases hwrite
    · rw [find?_concat hl] at hfound
      have hproper : name ∉ ["", ".", ".."] := by simpa [hname] using hdots
      have hfree : ∀ fs, lookup name es ≠ some (.folder fs) := by
        intro fs hfs
        rw [hfs] at hfound
        cases hfound
        cases hwrite
      refine ⟨qs, name, l, es, hroute, hproper, Nat.le_of_not_lt hsize, hwalk, hl, hfree, ?_⟩
      cases e with
      | none => exact (Except.ok.inj hwrite).symm
      | some e =>
        cases e with
        | file b => exact (Except.ok.inj hwrite).symm
        | folder fs => cases hwrite

/-- What was written is there. -/
theorem entry?_of_writeFile (h : d.writeFile p bytes = .ok d') :
    d'.entry? p = some (.file bytes) := by
  obtain ⟨ps, name, l, es, hroute, hproper, hsize, hwalk, hl, hfree, rfl⟩ := writeFile_eq_ok h
  have hlocate := locate_eq_ok.mpr ⟨_, hroute, walk_put hwalk hl hproper hsize hfree (.file bytes)⟩
  rw [entry?_of_locate hlocate]
  exact Entry.find?_put_self hl name (.file bytes)

/-- A file that was written is listed in its folder. -/
theorem lookup_of_writeFile_join (h : d.writeFile (folder.join ⟨name⟩) bytes = .ok d')
    (hfolder : folder.text ≠ "") (hname : '/' ∉ name.toList) :
    ∃ es, d'.readFolder folder = .ok es ∧ lookup name es = some (.file bytes) := by
  obtain ⟨ps, last, l, es, hroute, -, -, hwalk, hl, hfree, rfl⟩ := writeFile_eq_ok h
  obtain ⟨qs, rs, hpieces, hrs, hjoin⟩ := pieces_join hfolder hname
  rw [← (route_eq_ok hroute).1] at hjoin
  obtain ⟨rfl, hlast⟩ := List.append_inj' hjoin rfl
  cases hlast
  have hlocate : d.locate folder = .ok l := by
    refine locate_eq_ok.mpr ⟨_, route_of_join hroute hfolder hname, ?_⟩
    rw [start_join hname] at hwalk
    rw [hpieces]
    exact walk_append_empty hrs hwalk hl
  exact ⟨_, readFolder_edit hlocate hl fun k fs hk => Entry.lookup_write_of_free hfree _ hk,
    OrderedMap.lookup_write_self ..⟩

theorem removeFile_join (h : d.readFolder folder = .ok es) (hname : Fits folder name)
    (hlook : lookup name es = some (.file bytes)) :
    ∃ d', d.removeFile (folder.join ⟨name⟩) = .ok d' ∧
      d'.readFolder folder = .ok (es.filter (·.1 ≠ name)) := by
  obtain ⟨l, hlocate, hl⟩ := readFolder_eq_ok.mp h
  have hjoin := locate_join_of_lookup hlocate hl hname (by rw [hlook]; rfl)
  refine ⟨d.take l name, ?_, ?_⟩
  · simp only [removeFile, hjoin, bind, Except.bind, find?_concat hl, hlook,
      List.getLast?_concat, List.dropLast_concat]
    rfl
  · refine readFolder_edit hlocate hl fun k fs hk => ?_
    have hne : k ≠ name := by
      rintro rfl
      rw [hlook] at hk
      cases hk
    rw [OrderedMap.lookup_filter_of_ne hne, hk]

end StylePack.Disk
