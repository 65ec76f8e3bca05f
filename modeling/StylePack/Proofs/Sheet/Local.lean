import StylePack.Proofs.Sheet.Coherent
import StylePack.Proofs.Sheet.Rewriting

/-! Where an edit shows. It changes one list of children, so in the order of the document something
happens in one place (`Linked.exists_around`): a branch goes, a node comes after what stood below
its parent, or a node comes before another one. All else stays, and where the place is not attached
the document stays as a whole (`Local.document_eq`). -/
namespace StylePack.Css.Sheet
open Relation
variable {s s' : Sheet} {kind : Kind} {a c p q t x : Nat} {cs : List Nat}

/-- Nodes with what is below each of them, in document order. -/
def runs (s : Sheet) (cs : List Nat) : List Nat := cs.flatMap fun c => c :: s.below c

theorem runs_append (cs ds : List Nat) : s.runs (cs ++ ds) = s.runs cs ++ s.runs ds :=
  List.flatMap_append

theorem runs_cons (c : Nat) (cs : List Nat) : s.runs (c :: cs) = c :: s.below c ++ s.runs cs :=
  List.flatMap_cons

theorem runs_children (s : Sheet) (a : Nat) : s.runs (s.children a) = s.below a :=
  (below_eq s a).symm

theorem runs_congr (h : ∀ c ∈ cs, s'.below c = s.below c) : s'.runs cs = s.runs cs :=
  List.flatMap_congr fun c hc => by rw [h c hc]

theorem below_eq_nil (h : s.size ≤ c) : s.below c = [] := by
  rw [below_eq, children_eq_nil h, List.flatMap_nil]

section
variable (hs : ∀ i, i ≠ q → s'.children i = s.children i)
include hs

/-- Where only `q` gets other children, these come with what was below them before. -/
theorem below_of_other_children : s'.below q = s.runs (s'.children q) := by
  rw [← runs_children]
  refine runs_congr fun c hc => below_congr fun i hi => hs i ?_
  have hle := hi.le
  have hlt := lt_of_mem_children hc
  omega

/-- A branch is one run of the branches around it, and while only its top gets other children, the
nodes before it and behind it stay. -/
theorem Linked.exists_around (h : Linked s) (hu : s.Under a q) :
    ∃ l r, a :: s.below a = l ++ (q :: s.below q) ++ r ∧
      a :: s'.below a = l ++ (q :: s'.below q) ++ r := by
  induction hu using ReflTransGen.head_induction_on with
  | refl => exact ⟨[], [], by simp, by simp⟩
  | @head a c hac hcq ih =>
    obtain ⟨l, r, hold, hnew⟩ := ih
    obtain ⟨cl, cr, hsplit⟩ := List.append_of_mem hac
    obtain ⟨hcl, hcr⟩ := notMem_around (hsplit ▸ h.nodup_children a)
    have hne : a ≠ q := by
      have hle := Under.le hcq
      have hlt := lt_of_mem_children hac
      omega
    -- `q` is under `c`, so under no other child
    have hside : ∀ ds : List Nat, (∀ d ∈ ds, d ∈ s.children a) → c ∉ ds →
        s'.runs ds = s.runs ds := by
      intro ds hds hc
      refine runs_congr fun d hd => below_congr fun i hi => hs i ?_
      rintro rfl
      exact hc (h.child_unique (hds d hd) hac hi hcq ▸ hd)
    refine ⟨a :: s.runs cl ++ l, r ++ s.runs cr, ?_, ?_⟩
    · rw [← runs_children, hsplit, runs_append, runs_cons, hold]
      simp only [List.append_assoc, List.cons_append]
    · rw [← runs_children, hs a hne, hsplit, runs_append, runs_cons, hnew,
        hside cl (by simp +contextual [hsplit]) hcl, hside cr (by simp +contextual [hsplit]) hcr]
      simp only [List.append_assoc, List.cons_append]

/-- The same for the whole document, with the root in front. -/
theorem Linked.exists_around_root (h : Linked s) (hq : s.isAttached q = true) :
    ∃ l r, root :: s.walk = l ++ q :: (s.runs (s.children q) ++ r) ∧
      root :: s'.walk = l ++ q :: (s.runs (s'.children q) ++ r) := by
  obtain ⟨l, r, hold, hnew⟩ := h.exists_around hs ((h.isAttached_iff q).mp hq)
  refine ⟨l, r, ?_, ?_⟩
  · rw [runs_children, walk, hold, List.append_assoc, List.cons_append]
  · rw [← below_of_other_children hs, walk, hnew, List.append_assoc, List.cons_append]

theorem Linked.exists_around_children (h : Linked s) (hq : s.isAttached q = true) :
    ∃ l r, s.walk = l ++ s.runs (s.children q) ++ r ∧
      s'.walk = l ++ s.runs (s'.children q) ++ r := by
  obtain ⟨l, r, hold, hnew⟩ := h.exists_around_root hs hq
  cases l with
  | nil => exact ⟨[], r, (List.cons.inj hold).2, (List.cons.inj hnew).2⟩
  | cons d l =>
    rw [List.cons_append] at hold hnew
    refine ⟨l ++ [q], r, ?_, ?_⟩
    · rw [(List.cons.inj hold).2, List.append_assoc, List.append_assoc, List.singleton_append]
    · rw [(List.cons.inj hnew).2, List.append_assoc, List.append_assoc, List.singleton_append]

end

theorem Grown.children_ne (hg : Grown s p kind cs s') : ∀ i, i ≠ p → s'.children i = s.children i :=
  fun i hi => (hg.children_eq i).trans (if_neg hi)

/-- Taking a node out takes it out of the order of the document with what is below it. -/
theorem Linked.walk_remove (h : Linked s) (hx : s.isAttached x = true) (hr : x ≠ root) :
    ∃ l r, s.walk = l ++ (x :: s.below x) ++ r ∧ (s.remove x).walk = l ++ r := by
  obtain ⟨p, hp, hattached⟩ := h.exists_parent hx hr
  obtain ⟨cl, cr, hsplit⟩ := List.append_of_mem (h.mem_children.mpr hp)
  have hchildren := children_remove hp (h.parent_lt_size hp)
  obtain ⟨l, r, hold, hnew⟩ := h.exists_around_children
    (fun i hi => (hchildren i).trans (if_neg hi)) hattached
  rw [hchildren, if_pos rfl, hsplit, filter_ne (hsplit ▸ h.nodup_children p), runs_append] at hnew
  rw [hsplit, runs_append, runs_cons] at hold
  exact ⟨l ++ s.runs cl, s.runs cr ++ r, by simp [hold], by simp [hnew]⟩

/-- A last child comes behind its parent and all that was below it. -/
theorem Linked.walk_append (h : Linked s) (hp : s.isAttached p = true) (kind : Kind) :
    ∃ l r, root :: s.walk = l ++ (p :: s.below p) ++ r ∧
      root :: (s.append p kind).1.walk = l ++ (p :: s.below p) ++ s.size :: r := by
  have hlt : p < s.size := ((h.isAttached_iff p).mp hp).lt_size h.root_lt
  have hg := append_grown hlt kind
  obtain ⟨l, r, hold, hnew⟩ := h.exists_around_root hg.children_ne hp
  rw [hg.children_eq, if_pos rfl, runs_append, runs_cons, below_eq_nil le_rfl] at hnew
  rw [runs_children] at hold hnew
  exact ⟨l, r, by simp [hold], by simp [hnew, runs]⟩

/-- A node that is put before another one comes directly before it. -/
theorem Linked.walk_insertBefore (h : Linked s) (ht : s.isAttached t = true) (hr : t ≠ root)
    (kind : Kind) : ∃ s' l r, s.insertBefore t kind = some (s', s.size) ∧
      s.walk = l ++ t :: r ∧ s'.walk = l ++ s.size :: t :: r := by
  obtain ⟨p, hp, hattached⟩ := h.exists_parent ht hr
  have hm := h.mem_children.mpr hp
  obtain ⟨cl, cr, hsplit⟩ := List.append_of_mem hm
  obtain ⟨s', hs, hg⟩ := insertBefore_grown hp hm kind
  obtain ⟨l, r, hold, hnew⟩ := h.exists_around_children hg.children_ne hattached
  obtain ⟨hcl, -⟩ := notMem_around (hsplit ▸ h.nodup_children p)
  rw [hg.children_eq, if_pos rfl, hsplit, placeBefore_append hcl, runs_append, runs_cons,
    runs_cons, below_eq_nil le_rfl] at hnew
  rw [hsplit, runs_append, runs_cons] at hold
  exact ⟨s', l ++ s.runs cl, s.below t ++ s.runs cr ++ r, hs, by simp [hold], by simp [hnew]⟩

/-- What an edit leaves as it was: of the nodes that there were the kinds, the parents except that
of `out`, and the children except those of `place`. -/
structure Local (s s' : Sheet) (out place : Option Nat) : Prop extends Keeps s s' where
  parent?_eq : ∀ i < s.size, out ≠ some i → s'.parent? i = s.parent? i
  children_eq : ∀ i < s.size, place ≠ some i → s'.children i = s.children i

theorem Grown.local (hg : Grown s p kind cs s') : Local s s' none (some p) where
  toKeeps := hg.keeps
  parent?_eq i hi _ := by rw [hg.parent?_eq, if_neg hi.ne]
  children_eq i _ hp := hg.children_ne i fun he => hp (congrArg some he.symm)

theorem Linked.local_remove (h : Linked s) (x : Nat) :
    Local s (s.remove x) (some x) (s.parent? x) where
  size_le := (size_remove s x).ge
  kind?_eq i _ := kind?_remove s x i
  parent?_eq i _ hx := by
    rw [parent?_remove, if_neg]
    rintro rfl
    exact hx rfl
  children_eq i hi hplace := by
    cases hp : s.parent? x with
    | none => rw [remove_of_parent?_none hp]
    | some p =>
      rw [children_remove hp (h.parent_lt_size hp), if_neg]
      rintro rfl
      exact hplace hp

/-- An edit in a place that is not attached leaves the document as it is. -/
theorem Local.document_eq {out place : Option Nat} (hl : Local s s' out place) (h : Linked s)
    (hplace : ∀ q, place = some q → s.isAttached q = false) :
    s'.walk = s.walk ∧ s'.toCss = s.toCss := by
  have hunder : ∀ i, s.Under root i → s'.kind? i = s.kind? i ∧ s'.children i = s.children i := by
    intro i hi
    have hlt := hi.lt_size h.root_lt
    -- a node under the root is attached, so it is not the place
    refine ⟨hl.kind?_eq i hlt, hl.children_eq i hlt fun he => ?_⟩
    have hattached := (h.isAttached_iff i).mpr hi
    rw [hplace i he] at hattached
    cases hattached
  constructor
  · exact below_congr fun i hi => (hunder i hi).2
  · rw [toCss, toCss, contents_eq, contents_eq, subtrees_congr hunder]

theorem Linked.detached_parent (h : Linked s) (hx : s.isAttached x = false) :
    ∀ q, s.parent? x = some q → s.isAttached q = false :=
  fun _ hq => h.isAttached_parent hq ▸ hx

/-- What the edits of a sheet do to the order of the document, and what they leave as it is. -/
structure EditsLocally (s : Sheet) : Prop where
  /-- What is listed below a node are its descendants. -/
  mem_below_iff : ∀ {a x : Nat}, x ∈ s.below a ↔ TransGen s.Child a x
  remove_attached : ∀ {x : Nat}, s.isAttached x = true → x ≠ root →
    ∃ l r, s.walk = l ++ (x :: s.below x) ++ r ∧ (s.remove x).walk = l ++ r
  /-- The root, which may get children too, stands before the whole document. -/
  append_attached : ∀ {p : Nat}, s.isAttached p = true → ∀ kind : Kind,
    ∃ s' new l r, s.append p kind = (s', new) ∧ s.size ≤ new ∧
      root :: s.walk = l ++ (p :: s.below p) ++ r ∧
      root :: s'.walk = l ++ (p :: s.below p) ++ new :: r
  insertBefore_attached : ∀ {t : Nat}, s.isAttached t = true → t ≠ root → ∀ kind : Kind,
    ∃ s' new l r, s.insertBefore t kind = some (s', new) ∧ s.size ≤ new ∧
      s.walk = l ++ t :: r ∧ s'.walk = l ++ new :: t :: r
  remove_detached : ∀ {x : Nat}, s.isAttached x = false →
    (s.remove x).walk = s.walk ∧ (s.remove x).toCss = s.toCss
  append_detached : ∀ {p : Nat}, p < s.size → s.isAttached p = false → ∀ kind : Kind,
    (s.append p kind).1.walk = s.walk ∧ (s.append p kind).1.toCss = s.toCss
  insertBefore_detached : ∀ {s' : Sheet} {t new : Nat} {kind : Kind}, s.isAttached t = false →
    s.insertBefore t kind = some (s', new) → s'.walk = s.walk ∧ s'.toCss = s.toCss
  remove_local : ∀ x : Nat, Local s (s.remove x) (some x) (s.parent? x)
  append_local : ∀ {p : Nat}, p < s.size → ∀ kind : Kind,
    Local s (s.append p kind).1 none (some p)
  insertBefore_local : ∀ {s' : Sheet} {t new : Nat} {kind : Kind},
    s.insertBefore t kind = some (s', new) → Local s s' none (s.parent? t)

theorem editsLocally_of_reachable (h : Reachable s) : EditsLocally s where
  mem_below_iff := mem_below_iff_transGen
  remove_attached := h.linked.walk_remove
  append_attached {p} hp kind := by
    obtain ⟨l, r, hold, hnew⟩ := h.linked.walk_append hp kind
    exact ⟨_, s.size, l, r, Prod.ext rfl (append_snd s p kind), le_rfl, hold, hnew⟩
  insertBefore_attached ht hr kind := by
    obtain ⟨s', l, r, hs, hold, hnew⟩ := h.linked.walk_insertBefore ht hr kind
    exact ⟨s', s.size, l, r, hs, le_rfl, hold, hnew⟩
  remove_detached hx :=
    (h.linked.local_remove _).document_eq h.linked (h.linked.detached_parent hx)
  append_detached hlt hp kind := by
    refine (append_grown hlt kind).local.document_eq h.linked fun q hq => ?_
    rwa [← Option.some.inj hq]
  insertBefore_detached ht hs := by
    obtain ⟨-, p, hp, -, hg⟩ := insertBefore_eq_some hs
    exact hg.local.document_eq h.linked (hp ▸ h.linked.detached_parent ht)
  remove_local := h.linked.local_remove
  append_local hlt kind := (append_grown hlt kind).local
  insertBefore_local hs := by
    obtain ⟨-, p, hp, -, hg⟩ := insertBefore_eq_some hs
    exact hp ▸ hg.local

theorem editsLocally_beside_removed :
    Reachable ((parse ".a\x7b@use b;c:d\x7d.e\x7b\x7d").remove 1) ∧
      EditsLocally ((parse ".a\x7b@use b;c:d\x7d.e\x7b\x7d").remove 1) ∧
      ((((parse ".a\x7b@use b;c:d\x7d.e\x7b\x7d").remove 1).append 2 (.comment "f")).1.walk =
        ((parse ".a\x7b@use b;c:d\x7d.e\x7b\x7d").remove 1).walk) := by
  have hsize : 2 < (parse ".a\x7b@use b;c:d\x7d.e\x7b\x7d").size := by decide +kernel
  have hreach := (Reachable.parse ".a\x7b@use b;c:d\x7d.e\x7b\x7d").remove
    (Nat.lt_of_succ_lt hsize)
  have h := editsLocally_of_reachable hreach
  have hlt := hsize.trans_eq (size_remove _ 1).symm
  exact ⟨hreach, h, (h.append_detached hlt (by decide +kernel) (.comment "f")).1⟩

end StylePack.Css.Sheet
