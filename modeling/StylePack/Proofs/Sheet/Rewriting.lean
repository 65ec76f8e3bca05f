import Mathlib.Logic.Function.Basic
import StylePack.Proofs.Sheet.Contents
import StylePack.Proofs.Tree

/-! Rewriting a sheet in place. Nodes are taken out one by one; in front of a node that is still to
go, and at the end of any old node, leaves are added. What the sheet has become is said node by
node: what the old lists of children have turned into. -/
namespace StylePack.Css.Sheet
variable {s s' : Sheet} {done : List Nat} {notes added : Nat → List Kind}

/-- The nodes `done` of `s` were taken out in `s'`, and the other old ones kept their parents. -/
structure Cut (s s' : Sheet) (done : List Nat) : Prop where
  linked : Linked s'
  size_le : s.size ≤ s'.size
  parent?_eq : ∀ i < s.size, s'.parent? i = if i ∈ done then none else s.parent? i

/-- A child of a rewritten sheet: an old node by its number, or a new one by its kind. -/
def entry (s' : Sheet) (size c : Nat) : Nat ⊕ Kind :=
  if c < size then .inl c else .inr (s'.kind c)

/-- What a list of children turns into: each node with the notes in front of it, or with the notes
in its place. -/
def rewriting (done : List Nat) (notes : Nat → List Kind) (cs : List Nat) : List (Nat ⊕ Kind) :=
  cs.flatMap fun c => (notes c).map .inr ++ if c ∈ done then [] else [.inl c]

/-- `s'` came from `s`: `done` was taken out, `notes` were put in front of nodes and `added` at the
end of nodes. -/
structure Rewritten (s s' : Sheet) (done : List Nat) (notes added : Nat → List Kind) : Prop
    extends Cut s s' done where
  kind?_eq : ∀ i < s.size, s'.kind? i = s.kind? i
  entries_eq : ∀ p < s.size, (s'.children p).map (s'.entry s.size) =
    rewriting done notes (s.children p) ++ (added p).map .inr
  leaf : ∀ i, s.size ≤ i → s'.children i = []

theorem notMem_around {d : Nat} {l r : List Nat} (h : (l ++ d :: r).Nodup) :
    d ∉ l ∧ d ∉ r := by
  rw [List.nodup_middle, List.nodup_cons, List.mem_append, not_or] at h
  exact h.1

theorem takeWhile_ne {d : Nat} {l r : List Nat} (h : d ∉ l) :
    (l ++ d :: r).takeWhile (· != d) = l := by
  have hall : ∀ x ∈ l, (x != d) = true := by
    intro x hx
    rw [bne_iff_ne]
    rintro rfl
    exact h hx
  rw [List.takeWhile_append_of_pos hall, List.takeWhile_cons_of_neg (by simp), List.append_nil]

theorem filter_ne {d : Nat} {l r : List Nat} (h : (l ++ d :: r).Nodup) :
    (l ++ d :: r).filter (· != d) = l ++ r := by
  obtain ⟨hl, hr⟩ := notMem_around h
  rw [List.filter_append, List.filter_cons_of_neg (by simp), List.filter_eq_self.mpr,
    List.filter_eq_self.mpr]
  · exact fun c hc => by simpa using fun he : c = d => hr (he ▸ hc)
  · exact fun c hc => by simpa using fun he : c = d => hl (he ▸ hc)

/-- The tree at a child of a rewritten sheet. -/
def entryTree (s s' : Sheet) : Nat ⊕ Kind → Tree Kind
  | .inl c => .node (s.kind c) (s'.subtrees c)
  | .inr k => Tree.leaf k

theorem entry_eq_inl_iff {size c d : Nat} (hd : d < size) :
    s'.entry size c = .inl d ↔ c = d := by
  unfold entry
  split
  · simp
  · simp only [reduceCtorEq, false_iff]
    omega

theorem inl_notMem_map_entry {size d : Nat} (hd : d < size) {cs : List Nat} (h : d ∉ cs) :
    .inl d ∉ cs.map (s'.entry size) := by
  intro hm
  obtain ⟨c, hc, he⟩ := List.mem_map.mp hm
  exact h ((entry_eq_inl_iff hd).mp he ▸ hc)

theorem rewriting_congr {done' : List Nat} {notes' : Nat → List Kind} {cs : List Nat}
    (h : ∀ c ∈ cs, notes' c = notes c ∧ (c ∈ done' ↔ c ∈ done)) :
    rewriting done' notes' cs = rewriting done notes cs := by
  unfold rewriting
  refine List.flatMap_congr fun c hc => ?_
  obtain ⟨hn, hd⟩ := h c hc
  simp only [hn, hd]

theorem rewriting_append (cs ds : List Nat) :
    rewriting done notes (cs ++ ds) = rewriting done notes cs ++ rewriting done notes ds :=
  List.flatMap_append

theorem rewriting_cons (c : Nat) (cs : List Nat) :
    rewriting done notes (c :: cs) =
      (notes c).map .inr ++ ((if c ∈ done then [] else [.inl c]) ++ rewriting done notes cs) := by
  rw [rewriting, List.flatMap_cons, List.append_assoc]
  rfl

theorem entry_congr {t : Sheet} {size : Nat} {cs : List Nat}
    (h : ∀ c ∈ cs, t.kind? c = s'.kind? c) :
    cs.map (t.entry size) = cs.map (s'.entry size) := by
  refine List.map_congr_left fun c hc => ?_
  simp only [entry, kind, h c hc]

theorem Grown.map_entry {t : Sheet} {p q size : Nat} {kind : Kind} {cs : List Nat}
    (hg : Grown s' p kind cs t) : (s'.children q).map (t.entry size) =
      (s'.children q).map (s'.entry size) := by
  refine entry_congr fun c hc => ?_
  rw [hg.kind?_eq, if_neg (lt_of_mem_children hc).2.ne]

theorem Grown.entry_size {t : Sheet} {p size : Nat} {kind : Kind} {cs : List Nat}
    (hg : Grown s' p kind cs t) (h : size ≤ s'.size) : t.entry size s'.size = .inr kind := by
  rw [entry, if_neg (by omega), Sheet.kind, hg.kind?_eq, if_pos rfl, Option.getD_some]

namespace Rewritten

theorem refl (h : Linked s) : Rewritten s s [] (fun _ => []) (fun _ => []) where
  linked := h
  size_le := le_rfl
  parent?_eq i _ := by simp
  kind?_eq i _ := rfl
  entries_eq p _ := by
    have hc : (s.children p).map (s.entry s.size) = (s.children p).map .inl := by
      refine List.map_congr_left fun c hc => ?_
      rw [entry, if_pos (lt_of_mem_children hc).2]
    rw [hc]
    simp [rewriting, List.map_eq_flatMap]
  leaf i hi := children_eq_nil hi

/-- Adding a leaf changes no link of an old node. -/
theorem cut_grow (h : Rewritten s s' done notes added) {t : Sheet} {p : Nat} {kind : Kind}
    {cs : List Nat} (hp : p < s.size) (hg : Grown s' p kind cs t)
    (hcs : cs.Perm (s'.size :: s'.children p)) : Cut s t done where
  linked := h.linked.grow (hp.trans_le h.size_le) hg hcs
  size_le := by
    have := h.size_le
    rw [hg.size_eq]
    omega
  parent?_eq i hi := by
    rw [hg.parent?_eq, if_neg (hi.trans_le h.size_le).ne, h.parent?_eq i hi]

theorem grow (h : Rewritten s s' done notes added) {t : Sheet} {p : Nat} {kind : Kind}
    {cs : List Nat} (hp : p < s.size) (hg : Grown s' p kind cs t)
    (hcs : cs.Perm (s'.size :: s'.children p)) {notes' added' : Nat → List Kind}
    (hentries : cs.map (t.entry s.size) =
      rewriting done notes' (s.children p) ++ (added' p).map .inr)
    (hother : ∀ q < s.size, q ≠ p →
      rewriting done notes' (s.children q) = rewriting done notes (s.children q) ∧
        added' q = added q) : Rewritten s t done notes' added' where
  toCut := h.cut_grow hp hg hcs
  kind?_eq i hi := by
    rw [hg.kind?_eq, if_neg (hi.trans_le h.size_le).ne, h.kind?_eq i hi]
  entries_eq q hq := by
    rw [hg.children_eq]
    by_cases hqp : q = p
    · rw [if_pos hqp, hentries, hqp]
    · obtain ⟨hn, ha⟩ := hother q hq hqp
      rw [if_neg hqp, hg.map_entry, h.entries_eq q hq, hn, ha]
  leaf i hi := by
    rw [hg.children_eq, if_neg (by omega)]
    exact h.leaf i hi

/-- A leaf that is added at the end of an old node. -/
theorem append (h : Rewritten s s' done notes added) {p : Nat} (hp : p < s.size) (kind : Kind) :
    Rewritten s (s'.append p kind).1 done notes
      (Function.update added p (added p ++ [kind])) := by
  have hg := append_grown (hp.trans_le h.size_le) kind
  refine h.grow hp hg (List.perm_append_singleton _ _) ?_ fun q _ hq =>
    ⟨rfl, Function.update_of_ne hq _ _⟩
  rw [List.map_append, hg.map_entry, h.entries_eq p hp, List.map_singleton,
    hg.entry_size h.size_le, Function.update_self, List.map_append, List.append_assoc]
  rfl

/-- Where a node that is still there stands in the list of children of its parent. -/
theorem split (h : Rewritten s s' done notes added) (hs : Linked s) {p d : Nat}
    {l r : List Nat} (hd : s.children p = l ++ d :: r) (hdone : d ∉ done) :
    ∃ l' r', s'.children p = l' ++ d :: r' ∧ d ∉ l' ∧ d ∉ r' ∧
      l'.map (s'.entry s.size) = rewriting done notes l ++ (notes d).map .inr ∧
      r'.map (s'.entry s.size) = rewriting done notes r ++ (added p).map .inr := by
  have hm : d ∈ s.children p := by simp [hd]
  have hlt := lt_of_mem_children hm
  have hp : p < s.size := by omega
  have hm' : d ∈ s'.children p := by
    rw [h.linked.mem_children, h.parent?_eq d hlt.2, if_neg hdone]
    exact hs.mem_children.mp hm
  obtain ⟨l', r', hs', hl'⟩ := List.eq_append_cons_of_mem hm'
  have hr' := (notMem_around (hs' ▸ h.linked.nodup_children p)).2
  refine ⟨l', r', hs', hl', hr', ?_⟩
  have he := h.entries_eq p hp
  rw [hs', hd, List.map_append, List.map_cons, (entry_eq_inl_iff hlt.2).mpr rfl, rewriting_append,
    rewriting_cons, if_neg hdone, List.singleton_append, List.append_assoc, List.append_assoc,
    List.cons_append, ← List.append_assoc] at he
  have hinj := (List.append_cons_inj_of_notMem (inl_notMem_map_entry hlt.2 hl')
    (inl_notMem_map_entry hlt.2 hr')).mp he
  exact ⟨hinj.1, hinj.2.2⟩

/-- A leaf that is put in front of a node that is still there. -/
theorem insertBefore (h : Rewritten s s' done notes added) (hs : Linked s) {p d : Nat}
    (hd : d ∈ s.children p) (hdone : d ∉ done) (kind : Kind) :
    ∃ t, s'.insertBefore d kind = some (t, s'.size) ∧
      Rewritten s t done (Function.update notes d (notes d ++ [kind])) added := by
  have hlt := lt_of_mem_children hd
  obtain ⟨l, r, hlr⟩ := List.append_of_mem hd
  obtain ⟨l', r', hs', hl', hr', hleft, hright⟩ := h.split hs hlr hdone
  have hm' : d ∈ s'.children p := by simp [hs']
  obtain ⟨t, ht, hg⟩ := insertBefore_grown (h.linked.mem_children.mp hm') hm' kind
  refine ⟨t, ht, h.grow (by omega) hg (placeBefore_perm hm') ?_ fun q hq hqp => ⟨?_, rfl⟩⟩
  · obtain ⟨hl, hr⟩ := notMem_around (hlr ▸ hs.nodup_children p)
    have hmap : (s'.children p).map (t.entry s.size) = (s'.children p).map (s'.entry s.size) :=
      hg.map_entry
    have hkeep : ∀ cs : List Nat, d ∉ cs →
        rewriting done (Function.update notes d (notes d ++ [kind])) cs =
          rewriting done notes cs := by
      intro cs hcs
      refine rewriting_congr fun c hc => ⟨?_, Iff.rfl⟩
      refine Function.update_of_ne ?_ _ _
      rintro rfl
      exact hcs hc
    rw [hs', List.map_append, List.map_append, List.map_cons, List.map_cons] at hmap
    obtain ⟨hmapl, hmapr⟩ := List.append_inj hmap (by simp)
    obtain ⟨hentry, hmapr⟩ := List.cons.inj hmapr
    rw [hs', placeBefore_append hl', List.map_append, List.map_cons, List.map_cons,
      hg.entry_size h.size_le, hmapl, hmapr, hentry, hleft, hright,
      (entry_eq_inl_iff hlt.2).mpr rfl, hlr, rewriting_append, rewriting_cons, if_neg hdone,
      hkeep l hl, hkeep r hr, Function.update_self]
    simp
  · refine rewriting_congr fun c hc => ⟨?_, Iff.rfl⟩
    refine Function.update_of_ne ?_ _ _
    rintro rfl
    exact hqp (hs.parent_unique hc hd)

/-- A node that is taken out; what was put in front of it stays. -/
theorem remove (h : Rewritten s s' done notes added) (hs : Linked s) {p d : Nat}
    (hd : d ∈ s.children p) (hdone : d ∉ done) :
    Rewritten s (s'.remove d) (done ++ [d]) notes added := by
  have hlt := lt_of_mem_children hd
  obtain ⟨l, r, hlr⟩ := List.append_of_mem hd
  obtain ⟨l', r', hs', -, -, hleft, hright⟩ := h.split hs hlr hdone
  have hparent : s'.parent? d = some p := h.linked.mem_children.mp (by simp [hs'])
  have hp' : p < s'.size := by
    have := h.size_le
    omega
  have hmem : ∀ {cs : List Nat}, d ∉ cs →
      rewriting (done ++ [d]) notes cs = rewriting done notes cs := by
    intro cs hcs
    refine rewriting_congr fun c hc => ⟨rfl, ?_⟩
    rw [List.mem_append, List.mem_singleton, or_iff_left]
    rintro rfl
    exact hcs hc
  refine ⟨⟨h.linked.remove d, by rw [size_remove]; exact h.size_le, ?_⟩, ?_, ?_, ?_⟩
  · intro i hi
    rw [parent?_remove, h.parent?_eq i hi]
    by_cases hid : i = d <;> simp [hid]
  · intro i hi
    rw [kind?_remove, h.kind?_eq i hi]
  · intro q hq
    have hkind : ∀ cs : List Nat, cs.map ((s'.remove d).entry s.size) =
        cs.map (s'.entry s.size) := fun cs => entry_congr fun c _ => kind?_remove s' d c
    rw [hkind, children_remove hparent hp']
    by_cases hqp : q = p
    · subst hqp
      obtain ⟨hl, hr⟩ := notMem_around (hlr ▸ hs.nodup_children q)
      rw [if_pos rfl, hs', filter_ne (hs' ▸ h.linked.nodup_children q), List.map_append, hleft,
        hright, hlr, rewriting_append, rewriting_cons, if_pos (by simp), hmem hl, hmem hr]
      simp
    · rw [if_neg hqp, h.entries_eq q hq, hmem]
      intro hc
      exact hqp (hs.parent_unique hc hd)
  · intro i hi
    rw [children_remove hparent hp', if_neg (by omega)]
    exact h.leaf i hi

/-- What stands below an old node of a rewritten sheet. -/
theorem subtrees_eq (h : Rewritten s s' done notes added) {p : Nat} (hp : p < s.size) :
    s'.subtrees p = ((s.children p).flatMap fun c => (notes c).map Tree.leaf ++
      if c ∈ done then [] else [.node (s.kind c) (s'.subtrees c)]) ++ (added p).map Tree.leaf := by
  have htree : (s'.children p).map (fun c => Tree.node (s'.kind c) (s'.subtrees c)) =
      ((s'.children p).map (s'.entry s.size)).map (entryTree s s') := by
    rw [List.map_map]
    refine List.map_congr_left fun c _ => ?_
    by_cases hc : c < s.size
    · simp only [Function.comp_apply, entry, if_pos hc, entryTree, kind, h.kind?_eq c hc]
    · have hnil : s'.subtrees c = [] := by
        rw [Sheet.subtrees_eq, h.leaf c (by omega), List.map_nil]
      simp only [Function.comp_apply, entry, if_neg hc, entryTree, hnil, Tree.leaf]
  have hflat : ∀ cs : List Nat, (rewriting done notes cs).map (entryTree s s') =
      cs.flatMap fun c => (notes c).map Tree.leaf ++
        if c ∈ done then [] else [.node (s.kind c) (s'.subtrees c)] := by
    intro cs
    rw [rewriting, List.map_flatMap]
    refine List.flatMap_congr fun c _ => ?_
    rw [List.map_append, List.map_map]
    split <;> rfl
  rw [Sheet.subtrees_eq, htree, h.entries_eq p hp, List.map_append, hflat, List.map_map]
  rfl

end Rewritten
end StylePack.Css.Sheet
