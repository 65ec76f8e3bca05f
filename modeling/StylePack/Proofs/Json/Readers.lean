import Mathlib.Tactic.SplitIfs
import StylePack.Proofs.Json.Printed

/-! The two readers of descriptors, by what they find in the JSON value of a text. Both read the
same name and the same styles; the strict one has more to ask for (`validate_eq_ok`,
`ofJson?_eq_some`). Of a descriptor that was printed they get all back, and the strict one can only
object to the name (`readers_toJson`). -/
namespace StylePack.Descriptor
open Json
open Package (isValidName)
variable {text : String} {value : Value} {name : String} {members : List (String × Value)}
  {styles : List (String × String)} {d : Descriptor}

/-- Every value among the members of an object is a string. -/
def AllStrings (members : List (String × Value)) : Prop := ∀ m ∈ members, ∃ s, m.2 = .string s

theorem string?_eq_some {s : String} : value.string? = some s ↔ value = .string s := by
  cases value <;> simp [Value.string?]

/-- The strict reader takes the styles of an object with no other values than strings, as the
lenient one takes them. -/
theorem strictStyles_eq_ok :
    strictStyles members = .ok styles ↔ AllStrings members ∧ styles = lenientStyles members := by
  induction members generalizing styles with
  | nil => simp [strictStyles, lenientStyles, AllStrings, eq_comm]
  | cons m members ih =>
    obtain ⟨property, value⟩ := m
    rw [strictStyles]
    cases hs : value.string? with
    | none =>
      have hnot : ¬ AllStrings ((property, value) :: members) := by
        intro hall
        obtain ⟨s, hvalue⟩ := hall _ List.mem_cons_self
        rw [string?_eq_some.mpr hvalue] at hs
        cases hs
      simp [hnot]
    | some s =>
      have hcons : AllStrings ((property, value) :: members) ↔ AllStrings members := by
        rw [AllStrings, List.forall_mem_cons]
        exact and_iff_right ⟨s, string?_eq_some.mp hs⟩
      have hlenient : lenientStyles ((property, value) :: members) =
          (property, s) :: lenientStyles members := by
        have hfirst : value.string?.map (fun s => (property, s)) = some (property, s) := by
          rw [hs, Option.map_some]
        exact List.filterMap_cons_some hfirst
      rw [hcons, hlenient]
      cases hrest : strictStyles members with
      | error defect =>
        have hnot : ¬ AllStrings members := by
          intro hall
          rw [ih.mpr ⟨hall, rfl⟩] at hrest
          cases hrest
        simp [Except.map, hnot]
      | ok rest =>
        obtain ⟨hall, rfl⟩ := ih.mp hrest
        simp [Except.map, hall, eq_comm]

/-- The name in a text. -/
def nameIn? (text : String) : Option String :=
  ((Value.parse? text).bind (·.get? "name")).bind Value.string?

/-- The members of the object of styles in a text. -/
def stylesIn? (text : String) : Option (List (String × Value)) :=
  ((Value.parse? text).bind (·.get? "styles")).bind Value.members?

theorem ofJson?_eq_some : ofJson? text = some d ↔ nameIn? text = some d.name ∧
    ∃ members, stylesIn? text = some members ∧ d.styles = .ofList (lenientStyles members) := by
  unfold ofJson? nameIn? stylesIn?
  cases Value.parse? text with
  | none => simp
  | some value =>
    simp only [Option.bind_eq_bind, Option.bind_some, Option.bind_eq_some_iff]
    constructor
    · rintro ⟨v, hv, name, hname, w, hw, members, hmembers, hd⟩
      cases hd
      exact ⟨⟨v, hv, hname⟩, members, ⟨w, hw, hmembers⟩, rfl⟩
    · rintro ⟨⟨v, hv, hname⟩, members, ⟨w, hw, hmembers⟩, hstyles⟩
      exact ⟨v, hv, d.name, hname, w, hw, members, hmembers, by rw [← hstyles]; rfl⟩

/-- The strict reader reads what the lenient one reads, where the name will do and all the styles
are strings. -/
theorem validate_eq_ok : validate text = .ok d ↔ nameIn? text = some d.name ∧
    Text.isBlankText d.name = false ∧ isValidName d.name = true ∧
      ∃ members, stylesIn? text = some members ∧ AllStrings members ∧
        d.styles = .ofList (lenientStyles members) := by
  unfold validate nameIn? stylesIn?
  cases Value.parse? text with
  | none => simp
  | some value =>
    simp only [Option.bind_some]
    constructor
    · intro h
      split_ifs at h
      split at h
      · cases h
      · rename_i name hname
        split_ifs at h with hblank hvalid
        rw [Bool.not_eq_true', Bool.not_eq_false] at hvalid
        split at h
        · cases h
        · rename_i members hmembers
          cases hstrict : strictStyles members with
          | error defect => simp [hstrict, Except.map] at h
          | ok styles =>
            rw [hstrict] at h
            cases h
            obtain ⟨hall, rfl⟩ := strictStyles_eq_ok.mp hstrict
            exact ⟨hname, Bool.eq_false_iff.mpr hblank, hvalid, members, hmembers, hall, rfl⟩
    · rintro ⟨hname, hblank, hvalid, members, hmembers, hall, hstyles⟩
      -- only an object has a name
      have hobject : value.members?.isNone = false := by
        cases hobject : value.members? with
        | none => simp [Value.get?, hobject] at hname
        | some _ => rfl
      rw [hobject, hname, hmembers]
      simp only [hblank, hvalid, strictStyles_eq_ok.mpr ⟨hall, rfl⟩, Bool.not_true,
        Bool.false_eq_true, if_false, Except.map, ← hstyles]

/-- A validated descriptor has a name that is not blank and can be the stem of a file's name. -/
theorem name_of_validate (h : validate text = .ok d) :
    Text.isBlankText d.name = false ∧ isValidName d.name = true :=
  have h := validate_eq_ok.mp h
  ⟨h.2.1, h.2.2.1⟩

theorem allStrings_member (es : List (String × String)) :
    AllStrings (es.map Value.Reader.member) := by
  intro m hm
  obtain ⟨e, -, rfl⟩ := List.mem_map.mp hm
  exact ⟨e.2, rfl⟩

/-- The strict reader finds no other fault with a printed descriptor than a bad name. -/
theorem validate_toJson (d : Descriptor) : validate d.toJson =
    if Text.isBlankText d.name then .error .missingName
    else if isValidName d.name then .ok d
    else .error .invalidName := by
  have hobject : d.toValue.members?.isNone = false := rfl
  have hname : (d.toValue.get? "name").bind Value.string? = some d.name := rfl
  have hstyles : (d.toValue.get? "styles").bind Value.members? =
      some (d.styles.entries.map Value.Reader.member) := rfl
  have hstrict : strictStyles (d.styles.entries.map Value.Reader.member) = .ok d.styles.entries :=
    strictStyles_eq_ok.mpr ⟨allStrings_member _, (lenientStyles_member _).symm⟩
  have hread : (strictStyles (d.styles.entries.map Value.Reader.member)).map
      (fun styles => (⟨d.name, .ofList styles⟩ : Descriptor)) = .ok d := by
    rw [hstrict, Except.map, OrderedMap.ofList_entries]
  rw [validate, parse?_toJson]
  simp only [hobject, hname, hstyles, hread, Bool.false_eq_true, if_false]
  cases isValidName d.name <;> rfl

/-- Both readers get back what was printed, the styles in their order; the strict one just if the
name will do. -/
theorem readers_toJson (d : Descriptor) : ofJson? d.toJson = some d ∧
    (validate d.toJson = .ok d ↔ Text.isBlankText d.name = false ∧ isValidName d.name = true) := by
  refine ⟨ofJson?_toJson d, ?_⟩
  rw [validate_toJson]
  cases Text.isBlankText d.name <;> cases isValidName d.name <;> simp

end StylePack.Descriptor
