import StylePack.Proofs.Css.Declared
import StylePack.Proofs.Css.Nested
import StylePack.Proofs.Css.Readable
import StylePack.Proofs.Sheet.Numbered

/-! What every sheet is like that was read from a text, whatever the text is. -/
namespace StylePack.Css
open Text

/-- The texts of a node as they are read: without blanks at their ends, a property as one word in
front of the first colon, and no `!important` left in a value. -/
def Kind.Normal : Kind → Prop
  | .root => True
  | .rule selector => trimmed selector = selector
  | .atRule _ params _ => trimmed params = params
  | .declaration d => d.property ≠ "" ∧ (∀ c ∈ d.property.toList, isBlank c = false ∧ c ≠ ':') ∧
      trimmed d.value = d.value ∧ (d.important = false → ∀ before after : List Char,
        d.value.toList = before ++ '!' :: after → '!' ∉ after →
          sameLetters (trim after) "important".toList = false)
  | .comment text => trimmed text = text ∧ ¬ ['*', '/'] <:+: text.toList

@[simp] theorem trimmed_ofList_trim (cs : List Char) :
    trimmed (String.ofList (trim cs)) = String.ofList (trim cs) := by
  rw [trimmed, String.toList_ofList, trim_trim]

namespace Declaration
variable {cs : List Char}

/-- What is left of a trimmed value without its `!important` is trimmed. -/
theorem trim_splitImportance (h : trim cs = cs) :
    trim (splitImportance cs).1 = (splitImportance cs).1 := by
  unfold splitImportance
  split
  · next before after hsplit =>
    split
    · refine trim_trimEnd fun c hc => ?_
      obtain ⟨hcs, -⟩ := splitLast_eq_some hsplit
      have hhead : c ∈ (trim cs).head? := by
        rw [h, hcs, List.head?_append, Option.mem_def.mp hc, Option.some_or]
        rfl
      exact not_blank_of_head?_trim hhead
    · exact h
  · exact h

/-- A value that is not important does not say so. -/
theorem not_sameLetters_important (himp : (splitImportance cs).2 = false)
    {before after : List Char} (hsplit : (splitImportance cs).1 = before ++ '!' :: after)
    (hmark : '!' ∉ after) : sameLetters (trim after) "important".toList = false := by
  have hlast := splitLast_append before hmark
  unfold splitImportance at himp hsplit
  split at himp
  · next before' after' hs =>
    split at himp
    · cases himp
    · next hne =>
      simp only [hs, if_neg hne] at hsplit
      rw [← hsplit, hs] at hlast
      cases hlast
      simpa using hne
  · next hs =>
    simp only [hs] at hsplit
    rw [← hsplit, hs] at hlast
    cases hlast

theorem normal_of_ofText? {content : Declaration} (h : ofText? cs = some content) :
    (Kind.declaration content).Normal := by
  obtain ⟨property, value, hsplit, hne, hword, rfl⟩ := ofText?_eq_some h
  obtain ⟨-, hcolon⟩ := splitFirst_eq_some hsplit
  refine ⟨?_, ?_, ?_, ?_⟩
  · intro hempty
    have hnil := congrArg String.toList hempty
    rw [String.toList_ofList] at hnil
    exact hne hnil
  · intro c hc
    rw [String.toList_ofList] at hc
    refine ⟨hword c hc, ?_⟩
    rintro rfl
    exact hcolon ((trim_isInfix property).subset hc)
  · rw [trimmed, String.toList_ofList, trim_splitImportance (trim_trim value)]
  · intro himp before after hvalue
    rw [String.toList_ofList] at hvalue
    exact not_sameLetters_important himp hvalue

theorem ofText?_text_of_normal {d : Declaration} (h : (Kind.declaration d).Normal) :
    ofText? d.text.toList = some d := by
  obtain ⟨hproperty, hword, hvalue, hplain⟩ := h
  refine ofText?_text (fun hnil => hproperty (String.toList_eq_nil_iff.mp hnil)) hword ?_
    fun himp => splitImportance_eq_self (hplain himp)
  have htrim := congrArg String.toList hvalue
  rwa [trimmed, String.toList_ofList] at htrim

/-- The declarations that are read back from their own text are the normal ones: the property is
one word without a colon, the value is trimmed, and unless the declaration is important, its value
does not say so. Whatever is read from a text is read back. -/
theorem read_back_iff :
    (∀ d : Declaration, ofText? d.text.toList = some d ↔ (Kind.declaration d).Normal) ∧
      ∀ (text : String) (d : Declaration), ofText? text.toList = some d →
        ofText? d.text.toList = some d :=
  ⟨fun _ => ⟨normal_of_ofText?, ofText?_text_of_normal⟩,
    fun _ _ h => ofText?_text_of_normal (normal_of_ofText? h)⟩

/-- A value that says `!important` twice is read back with the first one still in it. -/
theorem read_back_important :
    ofText? "a :\u00a0b !important! IMPORTANT ".toList = some ⟨"a", "b !important", true⟩ ∧
      ofText? (text ⟨"a", "b !important", true⟩).toList = some ⟨"a", "b !important", true⟩ ∧
        ¬ (Kind.declaration ⟨"a", "b !important", false⟩).Normal := by
  have hread : ofText? "a :\u00a0b !important! IMPORTANT ".toList =
      some ⟨"a", "b !important", true⟩ := by decide
  exact ⟨hread, read_back_iff.2 _ _ hread, mt (read_back_iff.1 _).mpr (by decide)⟩

end Declaration

theorem normal_of_readable {k : Kind} (h : Tree.Readable k) : k.Normal := by
  cases h with
  | rule text => exact trimmed_ofList_trim text
  | atRule name params hasBlock => exact trimmed_ofList_trim params
  | declaration hc => exact Declaration.normal_of_ofText? hc
  | @comment body hbody =>
    refine ⟨trimmed_ofList_trim body, fun hi => hbody ?_⟩
    rw [String.toList_ofList] at hi
    exact hi.trans (trim_isInfix body)

namespace Sheet
open Relation
variable {s : Sheet} {a i x : Nat}

theorem kind?_eq_some (hi : i < s.size) : s.kind? i = some (s.kind i) := by
  have hn : s.nodes[i]? = some s.nodes[i] := Array.getElem?_eq_getElem hi
  rw [kind, kind?, hn]
  rfl

theorem subtrees_eq_nil_iff : s.subtrees i = [] ↔ s.children i = [] := by
  rw [subtrees_eq, List.map_eq_nil_iff]

/-- Where only blocks have nodes in them, this holds further down. -/
theorem blocked_below (h : Tree.AllBlocked (s.subtrees a)) (hx : x ∈ s.below a) :
    Tree.AllBlocked (s.subtrees x) ∧ (s.children x ≠ [] → Tree.hasBody (s.kind x) = true) := by
  have hchild : ∀ {p c : Nat}, Tree.AllBlocked (s.subtrees p) → c ∈ s.children p →
      Tree.AllBlocked (s.subtrees c) ∧ (s.children c ≠ [] → Tree.hasBody (s.kind c) = true) := by
    intro p c hp hc
    rw [subtrees_eq, Tree.allBlocked_iff] at hp
    obtain ⟨hbody, hall⟩ := hp _ (List.mem_map_of_mem hc)
    exact ⟨hall, fun hne => hbody (mt subtrees_eq_nil_iff.mp hne)⟩
  rw [mem_below_iff_transGen] at hx
  induction hx with
  | single hc => exact hchild h hc
  | tail _ hc ih => exact hchild ih.1 hc

theorem block_of_hasBody (hi : i < s.size) (h : Tree.hasBody (s.kind i) = true) :
    s.isRule i = true ∨ ∃ name params, s.kind? i = some (.atRule name params true) := by
  rw [isRule, kind?_eq_some hi]
  cases hk : s.kind i with
  | rule selector => exact Or.inl rfl
  | atRule name params hasBlock =>
    rw [hk] at h
    obtain rfl : hasBlock = true := h
    exact Or.inr ⟨name, params, rfl⟩
  | _ => simp [hk, Tree.hasBody] at h

/-- Only blocks have nodes in them. -/
theorem block_of_child_parse {css : String} (hne : (parse css).children i ≠ []) :
    i = root ∨ (parse css).isRule i = true ∨
      ∃ name params, (parse css).kind? i = some (.atRule name params true) := by
  have hi : i < (parse css).size := by
    by_contra hi
    exact hne (children_eq_nil (Nat.le_of_not_lt hi))
  by_cases hr : i = root
  · exact Or.inl hr
  · have hblocked : Tree.AllBlocked ((parse css).subtrees root) := by
      rw [← contents_eq, contents_parse]
      exact (Tree.nested_parse css).1
    have hm := ((Linked.parse css).mem_walk_iff i).mpr ⟨isAttached_parse hi, hr⟩
    exact Or.inr (block_of_hasBody hi ((blocked_below hblocked hm).2 hne))

theorem declarations_root_parse (css : String) : (parse css).declarations root = [] := by
  unfold declarations
  rw [List.filterMap_eq_nil_iff]
  intro c hc
  have hm : Tree.node ((parse css).kind c) ((parse css).subtrees c) ∈ Tree.parse css := by
    rw [← contents_parse, contents_eq, subtrees_eq]
    exact List.mem_map_of_mem hc
  have hnone := (Tree.nested_parse css).2 _ hm
  rw [Tree.label] at hnone
  rw [kind?_eq_some (lt_of_mem_children hc).2, Option.bind_some, hnone]

theorem normal_parse {css : String} {k : Kind} (hk : (parse css).kind? i = some k) : k.Normal := by
  by_cases hr : k = .root
  · rw [hr]
    trivial
  · -- every node is attached, so its kind stands in the content that was read
    have hm := ((Linked.parse css).mem_labels_contents hr).mpr
      ⟨i, isAttached_parse (lt_of_kind? hk), hk⟩
    rw [contents_parse, List.mem_flatMap] at hm
    obtain ⟨t, ht, hkt⟩ := hm
    exact normal_of_readable (Tree.readable_parse css t ht k hkt)

/-- What holds of a sheet as it was read: its numbers are in document order and all attached, only
blocks have nodes in them, and the texts of all nodes are normal. -/
structure AsRead (s : Sheet) : Prop where
  walk_eq : s.walk = List.range' 1 (s.size - 1)
  isAttached : ∀ i < s.size, s.isAttached i = true
  block_of_child : ∀ i, s.children i ≠ [] → i = root ∨ s.isRule i = true ∨
    ∃ name params, s.kind? i = some (.atRule name params true)
  declarations_root : s.declarations root = []
  normal : ∀ i k, s.kind? i = some k → k.Normal

theorem asRead_parse (css : String) : AsRead (parse css) where
  walk_eq := walk_parse css
  isAttached _ hi := isAttached_parse hi
  block_of_child _ hne := block_of_child_parse hne
  declarations_root := declarations_root_parse css
  normal _ _ hk := normal_parse hk

end Sheet
end StylePack.Css
