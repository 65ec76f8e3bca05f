import Mathlib.Data.List.Basic
import StylePack.Package.Name
import StylePack.Proofs.Disk.Files

/-! The parts of paths. A name below a path is one more part of it (`parts_join`), whatever path
that is. The parts of a path, or the first of them, are those of the path that is written out of
them (`parts_ofParts`). So a name leads one step down from its parent (`parent?_join`). A package
name is valid by its characters alone (`isValidName_iff`), which are those of a name that stays in
its folder. -/
namespace StylePack
open Disk (pieces IsPlain)

namespace Path
variable {p q folder : Path} {name piece : String} {part : Part} {ps rs : List Part}

/-- How a part of a path is written between slashes. -/
def Part.text : Part → String
  | .root => ""
  | .current => "."
  | .parent => ".."
  | .name text => text

/-- The part that a text between two slashes stands for. -/
def partOf (piece : String) : Option Part := partOfPiece piece.toList

theorem partOf_name (h : name ∉ ["", ".", ".."]) : partOf name = some (.name name) := by
  simp only [List.mem_cons, List.not_mem_nil, or_false, not_or] at h
  have hne : ∀ cs, name ≠ String.ofList cs → name.toList ≠ cs := fun cs hname he =>
    hname (by rw [← he, String.ofList_toList])
  rw [partOf, partOfPiece, if_neg (not_or.mpr ⟨hne [] h.1, hne ['.'] h.2.1⟩),
    if_neg (hne ['.', '.'] h.2.2), String.ofList_toList]

theorem partOf_stay (h : piece ∈ ["", "."]) : partOf piece = none := by
  simp only [List.mem_cons, List.not_mem_nil, or_false] at h
  rcases h with rfl | rfl <;> rfl

/-- Every other text between two slashes stands for a part that is written like it. -/
theorem exists_partOf (h : piece ∉ ["", "."]) :
    ∃ part, partOf piece = some part ∧ part.text = piece := by
  by_cases hup : piece = ".."
  · exact ⟨.parent, by rw [hup]; rfl, hup.symm⟩
  · exact ⟨.name piece, partOf_name (by simp_all), rfl⟩

theorem text_of_partOf (h : partOf piece = some part) : part.text = piece := by
  by_cases hstay : piece ∈ ["", "."]
  · rw [partOf_stay hstay] at h
    cases h
  · obtain ⟨part', hpart, htext⟩ := exists_partOf hstay
    rw [hpart] at h
    exact Option.some.inj h ▸ htext

theorem single_of_mem_pieces (h : piece ∈ pieces p) : '/' ∉ piece.toList := by
  obtain ⟨cs, hcs, rfl⟩ := List.mem_map.mp h
  intro hc
  rw [String.toList_ofList] at hc
  exact absurd (Text.forall_of_mem_splitWhere hcs '/' hc) (by decide)

/-- What a path begins with before its names. -/
def front (p : Path) : List Part :=
  if p.isAbsolute then [.root] else if (pieces p).head? = some "." then [.current] else []

theorem parts_eq (p : Path) : p.parts = p.front ++ (pieces p).filterMap partOf := by
  have hpoint : (Text.splitWhere (· == '/') p.text.toList).head? = some ['.'] ↔
      (pieces p).head? = some "." := by
    rw [pieces, List.head?_map]
    cases (Text.splitWhere (· == '/') p.text.toList).head? <;> simp [String.ext_iff]
  have hparts : (pieces p).filterMap partOf =
      (Text.splitWhere (· == '/') p.text.toList).filterMap partOfPiece := by
    rw [pieces, List.filterMap_map]
    refine List.filterMap_congr fun piece _ => ?_
    rw [Function.comp_apply, partOf, String.toList_ofList]
  rw [parts, front, hparts]
  simp only [hpoint]

theorem front_cases (p : Path) : p.front = [] ∨ p.front = [.root] ∨ p.front = [.current] := by
  unfold front
  split_ifs <;> simp

/-- A part that goes on from another one: neither the beginning of a path nor more than a name. -/
structure Part.Inner (part : Part) : Prop where
  read : partOf part.text = some part
  single : '/' ∉ part.text.toList

theorem inner_of_mem (h : part ∈ (pieces p).filterMap partOf) : part.Inner := by
  obtain ⟨piece, hpiece, hpart⟩ := List.mem_filterMap.mp h
  have htext := text_of_partOf hpart
  exact ⟨by rw [htext, hpart], by rw [htext]; exact single_of_mem_pieces hpiece⟩

namespace Part.Inner

theorem ne_root (h : part.Inner) : part ≠ .root := by
  rintro rfl
  exact absurd h.read (by decide)

theorem text_ne_empty (h : part.Inner) : part.text ≠ "" := by
  intro htext
  have hread := h.read
  rw [htext] at hread
  cases hread

theorem text_ne_point (h : part.Inner) : part.text ≠ "." := by
  intro htext
  have hread := h.read
  rw [htext] at hread
  cases hread

theorem text_notMem (h : part.Inner) : part.text ∉ ["", "."] := by
  simp [h.text_ne_empty, h.text_ne_point]

end Part.Inner

/-- The beginning of a path is one part at most. -/
theorem inner_of_mem_tail (h : part ∈ p.parts.tail) : part.Inner := by
  rw [parts_eq] at h
  rcases front_cases p with hfront | hfront | hfront <;> rw [hfront] at h
  · exact inner_of_mem (List.mem_of_mem_tail h)
  · exact inner_of_mem h
  · exact inner_of_mem h

theorem inner_of_parts (h : p.parts = ps ++ part :: rs) (hne : ps ≠ []) : part.Inner := by
  refine inner_of_mem_tail (p := p) ?_
  rw [h, List.tail_append_of_ne_nil hne]
  exact List.mem_append_right _ List.mem_cons_self

theorem isAbsolute_iff : p.isAbsolute = true ↔ p.parts.head? = some .root := by
  constructor
  · intro h
    rw [parts_eq, front, if_pos h]
    rfl
  · intro h
    by_contra hrelative
    have hroot : Part.root ∈ (pieces p).filterMap partOf := by
      rw [parts_eq, front, if_neg hrelative] at h
      split_ifs at h
      · cases h
      · exact List.mem_of_mem_head? h
    exact (inner_of_mem hroot).ne_root rfl

theorem ofParts_cons (h : part ≠ .root) (ps : List Part) : ofParts (part :: ps) =
    if ps.isEmpty then ⟨part.text⟩ else ⟨part.text ++ "/" ++ (ofParts ps).text⟩ := by
  cases part with
  | root => exact absurd rfl h
  | _ => rfl

theorem pieces_ofParts (hne : ps ≠ []) (h : ∀ part ∈ ps, part ≠ .root ∧ '/' ∉ part.text.toList) :
    pieces (ofParts ps) = ps.map Part.text := by
  induction ps with
  | nil => exact absurd rfl hne
  | cons part ps ih =>
    obtain ⟨hroot, hslash⟩ := h part List.mem_cons_self
    rw [ofParts_cons hroot]
    cases ps with
    | nil => exact Disk.pieces_name hslash
    | cons next ps =>
      have hrest := ih (List.cons_ne_nil _ _) fun part hpart =>
        h part (List.mem_cons_of_mem _ hpart)
      rw [List.map_cons, ← hrest]
      exact (Disk.pieces_append_slash _ _).trans (by rw [Disk.pieces_name hslash]; rfl)

theorem filterMap_partOf_text (h : ∀ part ∈ ps, part.Inner) :
    (ps.map Part.text).filterMap partOf = ps := by
  rw [List.filterMap_map]
  calc ps.filterMap (partOf ∘ Part.text)
      = ps.filterMap some := List.filterMap_congr fun part hpart => (h part hpart).read
    _ = ps := List.filterMap_some

theorem pieces_ofParts_inner (hne : ps ≠ []) (h : ∀ part ∈ ps, part.Inner) :
    pieces (ofParts ps) = ps.map Part.text :=
  pieces_ofParts hne fun part hpart => ⟨(h part hpart).ne_root, (h part hpart).single⟩

theorem filterMap_pieces_ofParts (h : ∀ part ∈ ps, part.Inner) :
    (pieces (ofParts ps)).filterMap partOf = ps := by
  cases ps with
  | nil => rfl
  | cons a ps => rw [pieces_ofParts_inner (List.cons_ne_nil a ps) h, filterMap_partOf_text h]

theorem pieces_cons_slash (text : String) : pieces ⟨"/" ++ text⟩ = "" :: pieces ⟨text⟩ :=
  Disk.pieces_append_slash "" text

theorem exists_of_isAbsolute (h : p.isAbsolute = true) : ∃ rest, p = ⟨"/" ++ rest⟩ := by
  obtain ⟨rest, hrest⟩ := List.head?_eq_some_iff.mp (of_decide_eq_true h)
  refine ⟨String.ofList rest, congrArg Path.mk ?_⟩
  rw [← String.toList_inj, hrest]
  simp

theorem isAbsolute_eq_false (h : (pieces p).head? ≠ some "") : p.isAbsolute = false := by
  refine Bool.eq_false_iff.mpr fun habsolute => h ?_
  obtain ⟨rest, rfl⟩ := exists_of_isAbsolute habsolute
  rw [pieces_cons_slash]
  rfl

theorem parts_ofParts_inner (h : ∀ part ∈ ps, part.Inner) : (ofParts ps).parts = ps := by
  cases ps with
  | nil => rfl
  | cons a ps =>
    have ha := h a List.mem_cons_self
    have hhead : (pieces (ofParts (a :: ps))).head? = some a.text := by
      rw [pieces_ofParts_inner (List.cons_ne_nil a ps) h]
      rfl
    have hfront : (ofParts (a :: ps)).front = [] := by
      rw [front, isAbsolute_eq_false (by simp [hhead, ha.text_ne_empty]), hhead]
      simp [ha.text_ne_point]
    rw [parts_eq, hfront, filterMap_pieces_ofParts h, List.nil_append]

theorem parts_ofParts_root (h : ∀ part ∈ ps, part.Inner) :
    (ofParts (.root :: ps)).parts = .root :: ps := by
  have htext : ofParts (.root :: ps) = ⟨"/" ++ (ofParts ps).text⟩ := rfl
  have hfront : (ofParts (.root :: ps)).front = [.root] := by
    rw [front, htext, isAbsolute, String.toList_append]
    rfl
  rw [parts_eq, hfront, htext, pieces_cons_slash]
  exact congrArg (.root :: ·) (filterMap_pieces_ofParts h)

theorem parts_ofParts_current (h : ∀ part ∈ ps, part.Inner) :
    (ofParts (.current :: ps)).parts = .current :: ps := by
  have hpieces : pieces (ofParts (.current :: ps)) = "." :: ps.map Part.text := by
    refine pieces_ofParts (List.cons_ne_nil _ ps) fun part hpart => ?_
    rcases List.mem_cons.mp hpart with rfl | hpart
    · exact ⟨nofun, by decide⟩
    · exact ⟨(h part hpart).ne_root, (h part hpart).single⟩
  have hfront : (ofParts (.current :: ps)).front = [.current] := by
    rw [front, isAbsolute_eq_false (by simp [hpieces]), hpieces]
    rfl
  rw [parts_eq, hfront, hpieces]
  exact congrArg (.current :: ·) (filterMap_partOf_text h)

/-- The first parts of a path, written out, are the parts of a path again. -/
theorem parts_ofParts (h : p.parts = ps ++ rs) : (ofParts ps).parts = ps := by
  rw [parts_eq] at h
  have hinner : ∀ ps, (pieces p).filterMap partOf = ps ++ rs → ∀ part ∈ ps, part.Inner :=
    fun ps hps part hpart => inner_of_mem (hps ▸ List.mem_append_left rs hpart)
  rcases front_cases p with hfront | hfront | hfront <;> rw [hfront] at h
  · exact parts_ofParts_inner (hinner ps h)
  · cases ps with
    | nil => rfl
    | cons first ps =>
      obtain ⟨rfl, hps⟩ := List.cons_eq_cons.mp h
      exact parts_ofParts_root (hinner ps hps)
  · cases ps with
    | nil => rfl
    | cons first ps =>
      obtain ⟨rfl, hps⟩ := List.cons_eq_cons.mp h
      exact parts_ofParts_current (hinner ps hps)

theorem parts_name (h : IsPlain name) : (Path.mk name).parts = [.name name] := by
  have hpoint : ¬ [name].head? = some "." := by
    intro he
    cases he
    exact h.proper (by simp)
  have hrelative : (Path.mk name).isAbsolute = false :=
    decide_eq_false fun hhead => h.single (List.mem_of_mem_head? hhead)
  rw [parts_eq, front, hrelative, Disk.pieces_name h.single, if_neg hpoint,
    List.filterMap_cons_some (partOf_name h.proper)]
  rfl

/-- A name below a path is one more part of it. -/
theorem parts_join (h : IsPlain name) :
    (folder.join ⟨name⟩).parts = folder.parts ++ [.name name] := by
  have hproper := h.proper
  simp only [List.mem_cons, List.not_mem_nil, or_false, not_or] at hproper
  by_cases hfolder : folder.text = ""
  · obtain rfl : folder = ⟨""⟩ := congrArg Path.mk hfolder
    have hjoin : (Path.mk "").join ⟨name⟩ = ⟨name⟩ := if_pos (Or.inr rfl)
    rw [hjoin, parts_name h]
    rfl
  · obtain ⟨ps, qs, hpieces, hqs, hps⟩ := Disk.pieces_join hfolder h.single
    have hnone : qs.filterMap partOf = [] := by
      refine List.filterMap_eq_nil_iff.mpr fun q hq => ?_
      rw [hqs q hq]
      rfl
    have hpoint : (pieces (folder.join ⟨name⟩)).head? = some "." ↔
        (pieces folder).head? = some "." := by
      rw [hpieces, hps]
      cases ps with
      | nil =>
        have hq : qs.head? ≠ some "." := fun hhead =>
          absurd (hqs _ (List.mem_of_mem_head? hhead)) (by decide)
        simp [hproper, hq]
      | cons a ps => rfl
    have hfront : (folder.join ⟨name⟩).front = folder.front := by
      rw [front, front, Disk.isAbsolute_join h.single]
      exact if_congr Iff.rfl rfl (if_congr hpoint rfl rfl)
    rw [parts_eq, parts_eq folder, hfront, hpieces, hps, List.filterMap_append,
      List.filterMap_append, hnone, List.append_nil, List.append_assoc]
    simp [partOf_name h.proper]

theorem fileName?_join (h : IsPlain name) : (folder.join ⟨name⟩).fileName? = some name := by
  rw [fileName?, parts_join h, List.getLast?_concat]

/-- The parent of a name is the path that it is below of, part by part. -/
theorem parent?_join (h : IsPlain name) :
    (folder.join ⟨name⟩).parent?.map parts = some folder.parts := by
  have hparent : (folder.join ⟨name⟩).parent? = some (ofParts folder.parts) := by
    rw [parent?, parts_join h, List.getLast?_concat, List.dropLast_concat]
  rw [hparent, Option.map_some, parts_ofParts (List.append_nil folder.parts).symm]

/-- The folders around a path are what its first parts lead to. -/
theorem mem_around (h : q ∈ p.around) :
    ∃ ps part rs, p.parts = ps ++ part :: rs ∧ q = ofParts ps := by
  have hall : ∀ parts : List Part, q ∈ aroundParts parts →
      ∃ ps part rs, parts.reverse = ps ++ part :: rs ∧ q = ofParts ps := by
    intro parts hq
    induction parts with
    | nil => cases hq
    | cons part parts ih =>
      rw [aroundParts, List.mem_cons] at hq
      rcases hq with rfl | hq
      · exact ⟨parts.reverse, part, [], List.reverse_cons, rfl⟩
      · obtain ⟨ps, part', rs, hparts, rfl⟩ := ih hq
        exact ⟨ps, part', rs ++ [part], by simp [hparts], rfl⟩
  obtain ⟨ps, part, rs, hparts, hq⟩ := hall _ h
  exact ⟨ps, part, rs, by rw [← hparts, List.reverse_reverse], hq⟩

/-- A folder around a path has its first parts, and starts where the path does. -/
theorem parts_of_mem_around (h : q ∈ p.around) (htext : q.text ≠ "") :
    q.isAbsolute = p.isAbsolute ∧
      ∃ part rs, p.parts = q.parts ++ part :: rs ∧ part.Inner := by
  obtain ⟨ps, part, rs, hparts, rfl⟩ := mem_around h
  obtain ⟨first, ps, rfl⟩ := List.exists_cons_of_ne_nil (l := ps) (by rintro rfl; exact htext rfl)
  rw [parts_ofParts hparts, Bool.eq_iff_iff, isAbsolute_iff, isAbsolute_iff, parts_ofParts hparts,
    hparts]
  exact ⟨Iff.rfl, part, rs, rfl, inner_of_parts hparts (List.cons_ne_nil first ps)⟩

end Path

/-- The names that are valid for a package, by their characters. -/
theorem Package.isValidName_iff (name : String) : isValidName name = true ↔
    name ≠ "" ∧ '/' ∉ name.toList ∧ '\\' ∉ name.toList ∧ ¬ ['.', '.'] <:+: name.toList ∧
      name ≠ "." := by
  by_cases hslash : '/' ∈ name.toList
  · simp [isValidName, hslash]
  · by_cases hpoints : ['.', '.'] <:+: name.toList
    · simp [isValidName, (hasTwoPoints_iff _).mpr hpoints, hpoints]
    · have hone : hasTwoPoints name.toList = false := by
        rw [Bool.eq_false_iff, Ne, hasTwoPoints_iff]
        exact hpoints
      by_cases hplain : name ∈ ["", ".", ".."]
      · simp only [List.mem_cons, List.not_mem_nil, or_false] at hplain
        rcases hplain with rfl | rfl | rfl <;> decide
      · have hparts := Path.parts_name ⟨hslash, hplain⟩
        simp only [List.mem_cons, List.not_mem_nil, or_false, not_or] at hplain
        simp [isValidName, hslash, hpoints, hone, hparts, hplain]

end StylePack
