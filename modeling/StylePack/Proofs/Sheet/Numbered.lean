import StylePack.Proofs.Sheet.Contents
import StylePack.Proofs.Sheet.Order

/-! The numbers of a sheet that was made from trees. Each node gets the next number when it is
added, a node before those below it, so the numbers come in document order (`walk_ofTrees`). -/
namespace StylePack.Css.Sheet
variable {s : Sheet} {p : Nat}

mutual

/-- A tree takes the next numbers, in order. -/
theorem numbered_graft : (t : Tree Kind) → {s : Sheet} → {p : Nat} → p < s.size →
    s.size :: (s.graft p t).below s.size = List.range' s.size ((s.graft p t).size - s.size)
  | .node kind children, s, p, hp => by
    have hg := append_grown hp kind
    have hnew : s.size < (s.append p kind).1.size := by rw [hg.size_eq]; omega
    obtain ⟨hext, -⟩ := graftAll_spec children hnew
    obtain ⟨cs, hcs, hnum⟩ := numbered_graftAll children hnew
    have hnil : (s.append p kind).1.children s.size = [] := by
      rw [hg.children_eq, if_neg (by omega), children_eq_nil le_rfl]
    have hle := hext.size_le
    rw [hg.size_eq] at hnum hle
    rw [graft_node, below_eq, hcs, hnil, List.nil_append, hnum, ← List.range'_succ]
    congr 1
    omega

theorem numbered_graftAll : (ts : List (Tree Kind)) → {s : Sheet} → {p : Nat} → p < s.size →
    ∃ cs, (s.graftAll p ts).children p = s.children p ++ cs ∧
      (cs.flatMap fun c => c :: (s.graftAll p ts).below c) =
        List.range' s.size ((s.graftAll p ts).size - s.size)
  | [], s, p, _ => ⟨[], by simp [graftAll]⟩
  | t :: ts, s, p, hp => by
    obtain ⟨-, hchild, hsize, -⟩ := graft_spec t hp
    obtain ⟨hext, -⟩ := graftAll_spec ts (hp.trans hsize)
    have hfirst := numbered_graft t hp
    obtain ⟨cs, hcs, hrest⟩ := numbered_graftAll ts (hp.trans hsize)
    have hle := hext.size_le
    refine ⟨s.size :: cs, ?_, ?_⟩
    · rw [graftAll, hcs, hchild, List.append_assoc, List.singleton_append]
    · -- the later trees stand below `p` and leave the first one as it is
      have hsame : ((s.graft p t).graftAll p ts).below s.size = (s.graft p t).below s.size :=
        below_congr fun i hi => by
          have hle := hi.le
          exact hext.children_eq i (hi.lt_size hsize) (by omega)
      rw [graftAll, List.flatMap_cons, hrest, hsame, hfirst]
      have hmid : (s.graft p t).size = s.size + ((s.graft p t).size - s.size) := by omega
      have hall : ((s.graft p t).graftAll p ts).size - s.size = ((s.graft p t).size - s.size) +
          (((s.graft p t).graftAll p ts).size - (s.graft p t).size) := by omega
      rw [hall, ← List.range'_append_1, ← hmid]

end

/-- A sheet that was made from trees is numbered in document order. -/
theorem walk_ofTrees (ts : List (Tree Kind)) :
    (ofTrees ts).walk = List.range' 1 ((ofTrees ts).size - 1) := by
  obtain ⟨cs, hcs, hnum⟩ := numbered_graftAll ts Linked.empty.root_lt
  have hnil : empty.children root = [] := rfl
  rw [hnil, List.nil_append] at hcs
  rw [walk, below_eq, ofTrees, hcs, hnum]
  rfl

theorem walk_parse (css : String) : (parse css).walk = List.range' 1 ((parse css).size - 1) :=
  walk_ofTrees _

theorem isAttached_parse {css : String} {i : Nat} (hi : i < (parse css).size) :
    (parse css).isAttached i = true := by
  by_cases hr : i = root
  · rw [hr]
    exact (Linked.parse css).isAttached_root
  · have hm : i ∈ (parse css).walk := by
      have hpos : i ≠ 0 := hr
      rw [walk_parse, List.mem_range'_1]
      omega
    exact ((Linked.parse css).mem_walk_iff i).mp hm |>.1

end StylePack.Css.Sheet
