import StylePack.Proofs.Sheet.Sweep
import StylePack.Proofs.Transform.Step

/-! The `@package` directives of a whole sheet. They are handled in document order, and as an
alias keeps its first package, what a directive finds bound is what is bound in the end. -/
namespace StylePack
open Css Css.Sheet
variable {P : PackageTable} {s : Sheet}

theorem atRules_eq (s : Sheet) (name : String) :
    s.atRules name = s.walk.filter fun i => (s.kind i).isAtRule name := by
  unfold atRules
  congr 1
  funext i
  unfold kind
  cases s.kind? i <;> rfl

/-- The directives that are handled: those with no directive of the sort around them. -/
theorem outermostAll_contents (s : Sheet) (is : Kind → Bool) :
    Tree.outermostAll is s.contents = (s.topmost (fun i => is (s.kind i)) root).map s.kind := by
  rw [contents, ← Tree.mapAll_eq_map, Tree.outermostAll_mapAll]
  rfl

theorem boundAll_eq_flatMap (A : String → Option String) (ts : List (Css.Tree Kind)) :
    boundAll P A ts = ts.flatMap fun t =>
      if isPackage t.label then (notesOf (packageProblems P A t.label)).map Tree.leaf
      else [bound P A t] := by
  induction ts with
  | nil => rfl
  | cons t ts ih => rw [boundAll, ih, List.flatMap_cons]

theorem firstBinding_append (ks ks' : List Kind) (name : String) :
    firstBinding P (ks ++ ks') name = (firstBinding P ks name).or (firstBinding P ks' name) := by
  rw [firstBinding, List.filterMap_append, List.lookup_append]
  rfl

theorem firstBinding_cons (k : Kind) (ks : List Kind) (name : String) :
    firstBinding P (k :: ks) name =
      ((binding? P k).toList.lookup name).or (firstBinding P ks name) := by
  rw [firstBinding, List.filterMap_cons]
  cases binding? P k with
  | none => rfl
  | some b =>
    rw [Option.toList_some, firstBinding, ← List.lookup_append, List.singleton_append]

/-- Directives that come later do not matter to one. -/
theorem packageProblems_append (P : PackageTable) (ks ks' : List Kind) (k : Kind) :
    packageProblems P (firstBinding P (ks ++ k :: ks')) k =
      packageProblems P (firstBinding P ks) k := by
  have happ := fun name => (firstBinding_append (P := P) ks (k :: ks') name).trans
    (congrArg _ (firstBinding_cons k ks' name))
  revert happ
  generalize firstBinding P (ks ++ k :: ks') = after
  unfold packageProblems binding?
  generalize directiveWords k = words
  intro happ
  match words with
  | [package, keyword, name] =>
    by_cases hk : Text.sameName keyword "as"
    · by_cases hp : P.contains package
      · simp only [hk, hp, Bool.and_self, if_true] at happ ⊢
        rw [happ name]
        cases firstBinding P ks name <;> simp
      · simp [hk, hp]
    · simp [hk]
  | [] | [_] | [_, _] | _ :: _ :: _ :: _ :: _ => rfl

namespace Expansion

/-- The `@package` directives `done` were handled. -/
structure Registered (P : PackageTable) (s : Sheet) (done : List Nat) (e : Expansion) : Prop where
  rewritten : Rewritten s e.sheet done
    (fun c => if c ∈ done then
      notesOf (packageProblems P (boundTo P s.contents) (s.kind c)) else [])
    fun _ => []
  get?_eq : e.aliases.get? = firstBinding P (done.map s.kind)
  used_eq : e.used = []
  diagnostics_eq : e.diagnostics =
    (done.map s.kind).flatMap (packageProblems P (boundTo P s.contents))

theorem Registered.start (hs : Linked s) : Registered P s [] (Expansion.start s) where
  rewritten := Rewritten.refl hs
  get?_eq := rfl
  used_eq := rfl
  diagnostics_eq := rfl

section
variable {done l r : List Nat} {e : Expansion} {p c : Nat} (h : Registered P s done e)
  (ht : Turn s (fun i => isPackage (s.kind i)) done p l c r)
include h ht

/-- At its turn a directive has the problems that it has with all the aliases of the sheet. -/
theorem Registered.problems_eq : packageProblems P e.aliases.get? (s.kind c) =
    packageProblems P (boundTo P s.contents) (s.kind c) := by
  obtain ⟨rest, horder⟩ := ht.order
  rw [boundTo, outermostAll_contents, horder, List.map_append, List.map_cons,
    packageProblems_append, h.get?_eq]

theorem Registered.step (hs : Linked s) : Registered P s (done ++ [c]) (e.register P c) := by
  have hnew := ht.notMem_done hs
  have hkind : e.sheet.kind c = s.kind c := by
    rw [kind, kind, h.rewritten.kind?_eq c (lt_of_mem_children ht.mem_children).2]
  rw [register_eq, hkind, h.problems_eq ht]
  refine ⟨?_, ?_, ?_, ?_⟩
  · have hrew := (reportAll_rewritten
      (e := { e with aliases := bindKind P e.aliases (s.kind c) }) hs ht.mem_children hnew
      h.rewritten (packageProblems P (boundTo P s.contents) (s.kind c))).remove hs
        ht.mem_children hnew
    rw [drop_sheet]
    rwa [update_done hnew] at hrew
  · funext word
    rw [List.map_append, firstBinding_append, List.map_singleton, firstBinding_cons, ← h.get?_eq]
    simp only [drop_aliases, reportAll_aliases, get?_bindKind]
    rw [firstBinding, List.filterMap_nil, List.lookup_nil, Option.or_none]
  · simpa only [drop_used, reportAll_used] using h.used_eq
  · simp only [drop_diagnostics, reportAll_diagnostics, h.diagnostics_eq, List.map_append,
      List.map_singleton, List.flatMap_append, List.flatMap_singleton]

end

/-- The `@package` directives of a sheet after all of them were handled. -/
theorem Registered.run (P : PackageTable) (hs : Linked s) :
    Registered P s (s.topmost (fun i => isPackage (s.kind i)) root)
      ((Expansion.start s).registerAll P (s.atRules "package")) := by
  rw [atRules_eq]
  exact sweep_walk Expansion.sheet (Expansion.register P) hs
    (fun _ _ h => h.rewritten.toCut) (fun _ _ _ _ _ _ h ht => h.step ht hs)
    (Registered.start hs)

theorem Registered.subtrees_eq {e : Expansion}
    (h : Registered P s (s.topmost (fun i => isPackage (s.kind i)) root) e) {p : Nat}
    (hp : p < s.size) (hclear : s.Clear (fun i => isPackage (s.kind i)) p) :
    e.sheet.subtrees p = boundAll P (boundTo P s.contents) (s.subtrees p) := by
  induction p using s.downward with
  | step p ih =>
    rw [h.rewritten.subtrees_eq hp, s.subtrees_eq p, boundAll_eq_flatMap, List.flatMap_map,
      List.map_nil, List.append_nil]
    refine List.flatMap_congr fun c hc => ?_
    have hlt := lt_of_mem_children hc
    by_cases hm : isPackage (s.kind c)
    · have hmem := (hclear.mem_topmost_iff hc).mpr hm
      simp only [if_pos hmem, Tree.label, hm, if_true, List.append_nil]
    · have hmem := mt (hclear.mem_topmost_iff hc).mp hm
      have hsub := ih c hc hlt.2 (hclear.tail ⟨hc, by simpa using hm⟩)
      simp only [if_neg hmem, Tree.label, hm, if_false, List.map_nil, List.nil_append, bound, hsub,
        Bool.false_eq_true]

/-- What the `@package` directives make of a sheet. -/
theorem Registered.contents_eq {e : Expansion} (hs : Linked s)
    (h : Registered P s (s.topmost (fun i => isPackage (s.kind i)) root) e) :
    e.sheet.contents = boundAll P (boundTo P s.contents) s.contents :=
  h.subtrees_eq hs.root_lt Relation.ReflTransGen.refl

theorem Registered.aliases_eq {e : Expansion}
    (h : Registered P s (s.topmost (fun i => isPackage (s.kind i)) root) e) :
    e.aliases.get? = boundTo P s.contents := by
  rw [h.get?_eq, boundTo, outermostAll_contents]

end Expansion
end StylePack
