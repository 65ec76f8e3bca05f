import StylePack.Proofs.Sheet.Descent

/-! The content of a sheet as trees: what it depends on, and that numbering trees and reading their
content back gives the same trees (`contents_ofTrees`). -/
namespace StylePack.Css.Sheet
open Relation
variable {s s' : Sheet} {p : Nat}

/-- What stands below a node. -/
def subtrees (s : Sheet) (i : Nat) : List (Tree Kind) := (s.outlineBelow i).map (Tree.map s.kind)

theorem contents_eq (s : Sheet) : s.contents = s.subtrees root := rfl

theorem subtrees_eq (s : Sheet) (i : Nat) :
    s.subtrees i = (s.children i).map fun c => .node (s.kind c) (s.subtrees c) := by
  unfold subtrees
  rw [outlineBelow_eq, List.map_map]
  refine List.map_congr_left fun c _ => ?_
  rw [Function.comp_apply, Tree.map_node]

theorem subtrees_congr (h : ∀ i, s.Under p i →
      s'.kind? i = s.kind? i ∧ s'.children i = s.children i) : s'.subtrees p = s.subtrees p := by
  induction p using s.downward with
  | step p ih =>
    rw [subtrees_eq, subtrees_eq, (h p ReflTransGen.refl).2]
    refine List.map_congr_left fun c hc => ?_
    have hsub := ih c hc fun i hi => h i (hi.head hc)
    rw [hsub, kind, kind, (h c (ReflTransGen.single hc)).1]

/-- Nodes were added, and of the old ones only `p` may have got children. -/
structure Extends (s : Sheet) (p : Nat) (s' : Sheet) : Prop where
  size_le : s.size ≤ s'.size
  kind?_eq : ∀ i < s.size, s'.kind? i = s.kind? i
  children_eq : ∀ i < s.size, i ≠ p → s'.children i = s.children i

theorem Extends.trans {s'' : Sheet} {q : Nat} (h : Extends s p s') (h' : Extends s' q s'')
    (hq : q = p ∨ s.size ≤ q) : Extends s p s'' where
  size_le := h.size_le.trans h'.size_le
  kind?_eq i hi := by rw [h'.kind?_eq i (hi.trans_le h.size_le), h.kind?_eq i hi]
  children_eq i hi hip := by
    rw [h'.children_eq i (hi.trans_le h.size_le) (by omega), h.children_eq i hi hip]

theorem Grown.extends {kind : Kind} {cs : List Nat} (h : Grown s p kind cs s') :
    Extends s p s' where
  size_le := by rw [h.size_eq]; omega
  kind?_eq i hi := by rw [h.kind?_eq, if_neg (by omega)]
  children_eq i _ hip := by rw [h.children_eq, if_neg hip]

mutual

theorem graft_spec : (t : Tree Kind) → {s : Sheet} → {p : Nat} → p < s.size →
    Extends s p (s.graft p t) ∧ (s.graft p t).children p = s.children p ++ [s.size] ∧
      s.size < (s.graft p t).size ∧
      .node ((s.graft p t).kind s.size) ((s.graft p t).subtrees s.size) = t
  | .node kind children, s, p, hp => by
    have hg := append_grown hp kind
    have hnew : s.size < (s.append p kind).1.size := by rw [hg.size_eq]; omega
    obtain ⟨hext, cs, hcs, -, hts⟩ := graftAll_spec children hnew
    rw [graft_node]
    refine ⟨hg.extends.trans hext (Or.inr le_rfl), ?_, hnew.trans_le hext.size_le, ?_⟩
    · rw [hext.children_eq p (hp.trans hnew) (by omega), hg.children_eq, if_pos rfl]
    · have hkind := hext.kind?_eq s.size hnew
      have hnil : (s.append p kind).1.children s.size = [] := by
        rw [hg.children_eq, if_neg (by omega), children_eq_nil le_rfl]
      rw [hnil, List.nil_append] at hcs
      rw [hg.kind?_eq, if_pos rfl] at hkind
      rw [subtrees_eq, hcs, hts, Sheet.kind, hkind, Option.getD_some]

theorem graftAll_spec : (ts : List (Tree Kind)) → {s : Sheet} → {p : Nat} → p < s.size →
    Extends s p (s.graftAll p ts) ∧ ∃ cs, (s.graftAll p ts).children p = s.children p ++ cs ∧
      (∀ c ∈ cs, s.size ≤ c) ∧
      cs.map (fun c => .node ((s.graftAll p ts).kind c) ((s.graftAll p ts).subtrees c)) = ts
  | [], s, p, _ => ⟨⟨le_rfl, fun _ _ => rfl, fun _ _ _ => rfl⟩, [], by simp [graftAll]⟩
  | t :: ts, s, p, hp => by
    obtain ⟨hext, hchild, hsize, ht⟩ := graft_spec t hp
    obtain ⟨hext', cs, hcs, hge, hts⟩ := graftAll_spec ts (hp.trans hsize)
    rw [Sheet.graftAll]
    refine ⟨hext.trans hext' (Or.inl rfl), s.size :: cs, ?_, ?_, ?_⟩
    · rw [hcs, hchild, List.append_assoc, List.singleton_append]
    · intro c hc
      rcases List.mem_cons.mp hc with rfl | hc
      · exact le_rfl
      · exact hsize.le.trans (hge c hc)
    · -- what the later trees add stands below `p`, which is not below the first tree
      have hsub : ((s.graft p t).graftAll p ts).subtrees s.size =
          (s.graft p t).subtrees s.size :=
        subtrees_congr fun i hi => by
          have hlt := hi.lt_size hsize
          have hle := hi.le
          exact ⟨hext'.kind?_eq i hlt, hext'.children_eq i hlt (by omega)⟩
      rw [List.map_cons, hts, hsub, Sheet.kind, hext'.kind?_eq s.size hsize, ← Sheet.kind, ht]

end

/-- A sheet has the content that it was made from. -/
theorem contents_ofTrees (ts : List (Tree Kind)) : (ofTrees ts).contents = ts := by
  obtain ⟨-, cs, hcs, -, hts⟩ := graftAll_spec ts Linked.empty.root_lt
  have hnil : empty.children root = [] := rfl
  rw [hnil, List.nil_append] at hcs
  rw [contents_eq, ofTrees, subtrees_eq, hcs, hts]

@[simp] theorem contents_parse (css : String) : (parse css).contents = Tree.parse css :=
  contents_ofTrees _

end StylePack.Css.Sheet
