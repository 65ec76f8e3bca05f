import StylePack.Extract
import StylePack.Proofs.OrderedMap.Collapse
import StylePack.Proofs.Sheet.Descent
import StylePack.Proofs.Text.Trimmed

/-! The packages of a stylesheet, told by its content alone: the pairs of a class and a declaration
that its rules give, in document order, are sorted by class. Merging whole rules into the classes,
with the declarations of each collapsed first and rules that give nothing left out, is merging
their pairs one by one (`classes_eq_foldl`), and a map to which pairs are added one by one is known
from the list of the pairs (`entries_foldl_addPair`). -/
namespace StylePack
open Css

namespace Extract
open ClassName OrderedMap

/-- The classes that a node names if it is a rule, each with every one of the declarations. -/
def rulePairs (k : Kind) (declarations : List Declaration) : List (String × String × String) :=
  ((k.selector?.map inSelector).getD []).flatMap fun name =>
    declarations.map fun d => (name, d.property, d.value)

mutual

/-- The pairs of a class and a declaration in a tree: those of the label with the declarations
directly below it, then those of the trees below. -/
def pairs : Css.Tree Kind → List (String × String × String)
  | .node k ts => rulePairs k (ts.filterMap fun t => t.label.declaration?) ++ pairsAll ts

def pairsAll : List (Css.Tree Kind) → List (String × String × String)
  | [] => []
  | t :: ts => pairs t ++ pairsAll ts

end

/-- What the pairs tell of one class. -/
def told (name : String) (ps : List (String × String × String)) : List (String × String) :=
  (ps.filter (·.1 = name)).map Prod.snd

/-- The different classes in the order of their first pairs. Each has its different properties in
the order of their first pairs, with the values of their last ones. -/
def gathered (ps : List (String × String × String)) : List (String × List (String × String)) :=
  (firstSeen (ps.map Prod.fst)).map fun name => (name, collapse (told name ps))

/-- Adds one declaration to one class. -/
def addPair (classes : OrderedMap String Styles) (pair : String × String × String) :
    OrderedMap String Styles :=
  classes.insert pair.1 (((classes.get? pair.1).getD .empty).insert pair.2.1 pair.2.2)

/-- The pairs that the rule with a number gives. -/
def pairsAt (s : Sheet) (i : Nat) : List (String × String × String) :=
  rulePairs (s.kind i) (s.declarations i)

variable {s : Sheet}

theorem foldl_addPair (classes : OrderedMap String Styles) (name : String)
    {ds : List (String × String)} (h : ds ≠ []) :
    (ds.map fun d => (name, d)).foldl addPair classes =
      classes.insert name (((classes.get? name).getD .empty).insertAll ds) := by
  induction ds generalizing classes with
  | nil => exact absurd rfl h
  | cons d ds ih =>
    rw [List.map_cons, List.foldl_cons]
    by_cases hds : ds = []
    · subst hds
      rfl
    · rw [ih _ hds, addPair, get?_insert_self, insert_insert, Option.getD_some]
      rfl

/-- Adding collapsed styles to a class is adding its declarations one by one. -/
theorem addClass_eq_foldl (classes : OrderedMap String Styles) (name : String)
    {ds : List (String × String)} (h : ds ≠ []) :
    addClass (.ofList ds) classes name = (ds.map fun d => (name, d)).foldl addPair classes := by
  rw [addClass, insertAll_ofList, foldl_addPair classes name h]

theorem dotted_eq_nil {cs : List Char} (h : '.' ∉ cs) : dotted cs = [] := by
  induction cs with
  | nil => rfl
  | cons c cs ih =>
    rw [List.mem_cons, not_or] at h
    rw [dotted, if_neg fun hc => h.1 hc.1.symm, ih h.2]

/-- A selector without a point names no class. -/
theorem inSelector_eq_nil {selector : String} (h : '.' ∉ selector.toList) :
    inSelector selector = [] := by
  have hnone : (branches selector.toList).flatMap dotted = [] := by
    rw [List.flatMap_eq_nil_iff]
    intro branch hbranch
    obtain ⟨piece, hpiece, rfl⟩ := List.mem_map.mp (List.mem_filter.mp hbranch).1
    refine dotted_eq_nil fun hdot => h ?_
    have hmem : '.' ∈ (Text.splitWhere (· == ',') selector.toList).flatten :=
      List.mem_flatten.mpr ⟨piece, hpiece, (Text.trim_isInfix piece).subset hdot⟩
    rw [Text.flatten_splitWhere] at hmem
    exact (List.mem_filter.mp hmem).1
  rw [inSelector, hnone]
  rfl

theorem selector?_kind (s : Sheet) (i : Nat) : (s.kind i).selector? = s.selector? i := by
  unfold Sheet.kind Sheet.selector?
  cases s.kind? i <;> rfl

theorem declaration?_kind (s : Sheet) (i : Nat) :
    (s.kind i).declaration? = (s.kind? i).bind Kind.declaration? := by
  unfold Sheet.kind
  cases s.kind? i <;> rfl

theorem foldl_addClass_eq (classes : OrderedMap String Styles) (names : List String)
    {ds : List (String × String)} (h : ds ≠ []) :
    names.foldl (addClass (.ofList ds)) classes =
      (names.flatMap fun name => ds.map fun d => (name, d)).foldl addPair classes := by
  rw [List.foldl_flatMap]
  congr 1
  funext classes name
  exact addClass_eq_foldl classes name h

/-- Adding a rule is adding its pairs, also where the rule is left out early. -/
theorem addRule_eq_foldl (s : Sheet) (classes : OrderedMap String Styles) (i : Nat) :
    addRule s classes i = (pairsAt s i).foldl addPair classes := by
  unfold addRule pairsAt rulePairs
  rw [selector?_kind]
  cases s.selector? i with
  | none => rfl
  | some selector =>
    rw [Option.map_some, Option.getD_some]
    by_cases hdot : '.' ∈ selector.toList
    · have hcontains : selector.toList.contains '.' = true := List.contains_iff_mem.mpr hdot
      by_cases hds : s.declarations i = []
      · have hempty : (stylesOf s i).isEmpty = true := by rw [stylesOf, hds]; rfl
        have hnone : ∀ names : List String,
            (names.flatMap fun _ => ([] : List (String × String × String))) = [] :=
          fun names => List.flatMap_eq_nil_iff.mpr fun _ _ => rfl
        simp only [hempty, hds, Bool.or_true, if_true, List.map_nil, hnone, List.foldl_nil]
      · have hne : (s.declarations i).map (fun d => (d.property, d.value)) ≠ [] := by
          rwa [Ne, List.map_eq_nil_iff]
        have hfull : (stylesOf s i).isEmpty = false := by
          rw [isEmpty, List.isEmpty_eq_false_iff]
          exact ofList_ne_empty hne
        simp only [hfull, hcontains, Bool.not_true, Bool.or_false, Bool.false_eq_true, if_false]
        rw [stylesOf, foldl_addClass_eq classes _ hne]
        simp only [List.map_map, Function.comp_def]
    · have hcontains : selector.toList.contains '.' = false := by simpa using hdot
      simp only [hcontains, inSelector_eq_nil hdot, Bool.not_false, Bool.true_or, if_true,
        List.flatMap_nil, List.foldl_nil]

theorem pairsAll_eq_flatMap (ts : List (Css.Tree Kind)) : pairsAll ts = ts.flatMap pairs := by
  induction ts with
  | nil => rfl
  | cons t ts ih => rw [pairsAll, ih, List.flatMap_cons]

/-- The declarations directly below a node are read off the trees below it. -/
theorem declarations_eq (s : Sheet) (i : Nat) :
    s.declarations i =
      ((s.outlineBelow i).map (Css.Tree.map s.kind)).filterMap fun t => t.label.declaration? := by
  rw [Sheet.declarations, Sheet.outlineBelow_eq, List.map_map, List.filterMap_map]
  refine List.filterMap_congr fun c _ => ?_
  rw [Function.comp_apply, Function.comp_apply, Css.Tree.map_node, ← declaration?_kind]
  rfl

/-- The trees below a node give what the nodes below it give, one after another. -/
theorem pairsAll_outlineBelow (s : Sheet) (i : Nat) :
    pairsAll ((s.outlineBelow i).map (Css.Tree.map s.kind)) = (s.below i).flatMap (pairsAt s) := by
  induction i using s.downward with
  | step i ih =>
    rw [Sheet.outlineBelow_eq, Sheet.below_eq, pairsAll_eq_flatMap, List.map_map, List.flatMap_map,
      List.flatMap_assoc]
    refine List.flatMap_congr fun c hc => ?_
    rw [Function.comp_apply, Css.Tree.map_node, pairs, ← declarations_eq, ih c hc,
      List.flatMap_cons, pairsAt]

theorem pairsAt_of_not_rule {i : Nat} (h : s.isRule i = false) : pairsAt s i = [] := by
  have hnone : s.selector? i = none := by
    unfold Sheet.isRule at h
    unfold Sheet.selector?
    cases hk : s.kind? i with
    | none => rfl
    | some k => simpa [hk, Kind.isRule] using h
  rw [pairsAt, rulePairs, selector?_kind, hnone]
  rfl

theorem pairsAll_contents (s : Sheet) : pairsAll s.contents = s.walk.flatMap (pairsAt s) :=
  pairsAll_outlineBelow s Sheet.root

/-- The classes of a sheet are those of its pairs, added one by one. -/
theorem classes_eq_foldl (s : Sheet) :
    classes s = (pairsAll s.contents).foldl addPair .empty := by
  rw [classes, Sheet.rules, List.foldl_filter, pairsAll_contents, List.foldl_flatMap]
  congr 1
  funext classes i
  split_ifs with hrule
  · exact addRule_eq_foldl s classes i
  · rw [pairsAt_of_not_rule (Bool.eq_false_iff.mpr hrule), List.foldl_nil]

theorem told_concat (name : String) (ps : List (String × String × String))
    (p : String × String × String) :
    told name (ps ++ [p]) = if p.1 = name then told name ps ++ [p.2] else told name ps := by
  unfold told
  rw [List.filter_append, List.map_append]
  split_ifs with h
  · rw [List.filter_cons_of_pos (by simpa using h), List.filter_nil, List.map_singleton]
  · rw [List.filter_cons_of_neg (by simpa using h), List.filter_nil, List.map_nil, List.append_nil]

theorem told_ne_nil {name : String} {ps : List (String × String × String)}
    (h : name ∈ ps.map Prod.fst) : told name ps ≠ [] := by
  obtain ⟨p, hp, rfl⟩ := List.mem_map.mp h
  exact List.ne_nil_of_mem (List.mem_map_of_mem (List.mem_filter.mpr ⟨hp, decide_eq_true rfl⟩))

theorem keys_foldl_addPair (ps : List (String × String × String)) :
    (ps.foldl addPair .empty).keys = firstSeen (ps.map Prod.fst) := by
  induction ps using List.reverseRecOn with
  | nil => rfl
  | append_singleton ps p ih =>
    rw [List.foldl_append, List.foldl_cons, List.foldl_nil, addPair, keys_insert, ih,
      List.map_append, List.map_singleton, firstSeen_concat]
    simp only [mem_firstSeen]

theorem get?_foldl_addPair (ps : List (String × String × String)) (name : String) :
    ((ps.foldl addPair .empty).get? name).getD .empty = ofList (told name ps) := by
  induction ps using List.reverseRecOn with
  | nil => rfl
  | append_singleton ps p ih =>
    rw [List.foldl_append, List.foldl_cons, List.foldl_nil, addPair, get?_insert, told_concat]
    by_cases h : p.1 = name
    · subst h
      rw [if_pos rfl, if_pos rfl, Option.getD_some, ih, ofList_append]
      rfl
    · rw [if_neg (Ne.symm h), if_neg h, ih]

/-- The pairs, added one by one, are sorted by class. -/
theorem entries_foldl_addPair (ps : List (String × String × String)) :
    (ps.foldl addPair .empty).entries =
      (firstSeen (ps.map Prod.fst)).map fun name => (name, ofList (told name ps)) := by
  rw [entries_eq_filterMap, keys_foldl_addPair, List.filterMap_eq_map_iff_forall_eq_some]
  intro name hname
  rw [← keys_foldl_addPair, ← contains_iff, contains, Option.isSome_iff_exists] at hname
  obtain ⟨styles, hstyles⟩ := hname
  have hget := get?_foldl_addPair ps name
  rw [hstyles, Option.getD_some] at hget
  rw [hstyles, hget, Option.map_some]

/-- The classes of the pairs are classes of selectors. -/
theorem exists_selector_of_mem_pairsAll {pair : String × String × String}
    (h : pair ∈ pairsAll s.contents) : ∃ selector, pair.1 ∈ inSelector selector := by
  rw [pairsAll_contents, List.mem_flatMap] at h
  obtain ⟨i, -, hi⟩ := h
  rw [pairsAt, rulePairs, List.mem_flatMap] at hi
  obtain ⟨name, hname, hpair⟩ := hi
  obtain ⟨d, -, rfl⟩ := List.mem_map.mp hpair
  cases hselector : (s.kind i).selector? with
  | none => simp [hselector] at hname
  | some selector => exact ⟨selector, by simpa [hselector] using hname⟩

end Extract
open Extract ClassName

theorem extract_eq (s : Sheet) : extract s =
    (firstSeen ((pairsAll s.contents).map Prod.fst)).map
      fun name => ⟨name, .ofList (told name (pairsAll s.contents))⟩ := by
  rw [extract, classes_eq_foldl, entries_foldl_addPair, List.map_map]
  rfl

/-- The packages of a stylesheet are its pairs of a class and a declaration, sorted by class, and
none of them is empty. -/
theorem entries_extract (s : Sheet) :
    (extract s).map (fun p => (p.name, p.styles.entries)) = gathered (pairsAll s.contents) ∧
      ∀ p ∈ extract s, p.styles.entries ≠ [] := by
  rw [extract_eq]
  constructor
  · rw [List.map_map, gathered]
    refine List.map_congr_left fun name _ => ?_
    rw [Function.comp_apply, OrderedMap.entries_ofList]
  · intro p hp
    obtain ⟨name, hname, rfl⟩ := List.mem_map.mp hp
    exact OrderedMap.ofList_ne_empty (told_ne_nil (mem_firstSeen.mp hname))

/-- Two rules that share a class. -/
def shared : Sheet :=
  Sheet.parse ".a,.b\x7bcolor:red;\x7d@media print\x7b.b\x7bcolor:blue;margin:0;\x7d\x7d"

/-- The rule further down gives the shared class a new color. -/
theorem entries_extract_shared :
    (extract shared).map (fun p => (p.name, p.styles.entries)) =
        [("a", [("color", "red")]), ("b", [("color", "blue"), ("margin", "0")])] ∧
      ⟨"a", .ofList [("color", "red")]⟩ ∈ extract shared ∧
      (OrderedMap.ofList [("color", "red")] : Styles).entries ≠ [] := by
  have hmem : ⟨"a", .ofList [("color", "red")]⟩ ∈ extract shared := by decide +kernel
  refine ⟨(entries_extract shared).1.trans ?_, hmem, (entries_extract shared).2 _ hmem⟩
  decide +kernel

end StylePack
