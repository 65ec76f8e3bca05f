import StylePack.Package.Json
import StylePack.Proofs.Json.Escapes

/-! A printed descriptor is read back as it was (`ofJson?_toJson`). The tokens of a printed text are
known piece by piece, whatever follows a piece (`Scans`), and the reader takes the styles one by
one. -/
namespace StylePack.Json

/-- A text gives these tokens in front of any text. -/
def Scans (cs : List Char) (ts : List Token) : Prop :=
  ∀ r, Token.scan (cs ++ r) = (Token.scan r).map (ts ++ ·)

namespace Scans
variable {c : Char} {cs ds : List Char} {t : Token} {ts us : List Token}

theorem append (h : Scans cs ts) (h' : Scans ds us) : Scans (cs ++ ds) (ts ++ us) := by
  intro r
  rw [List.append_assoc, h, h', Option.map_map]
  congr 1
  funext vs
  exact (List.append_assoc ts us vs).symm

theorem blank (h : Token.isSpace c = true) : Scans [c] [] := by
  intro r
  rw [List.singleton_append, Token.scan_space h]
  cases Token.scan r <;> rfl

theorem blanks (h : cs.all Token.isSpace = true) : Scans cs [] := by
  induction cs with
  | nil =>
    intro r
    simp
  | cons c cs ih =>
    rw [List.all_cons, Bool.and_eq_true] at h
    exact (blank h.1).append (ih h.2)

/-- A character that is a token by itself. -/
theorem mark (hs : Token.isSpace c = false) (h : ∀ r, Token.first c r = some (t, 0)) :
    Scans [c] [t] := by
  intro r
  rw [List.singleton_append, Token.scan_cons hs (h r), List.drop_zero]
  rfl

theorem openObject : Scans ['\x7b'] [.openObject] := mark (by decide) fun _ => rfl

theorem closeObject : Scans ['\x7d'] [.closeObject] := mark (by decide) fun _ => rfl

theorem comma : Scans [','] [.comma] := mark (by decide) fun _ => rfl

theorem colon : Scans [':'] [.colon] := mark (by decide) fun _ => rfl

/-- A quoted string is one token. -/
theorem quote (s : String) : Scans (Quoted.quote s).toList [.string s] := by
  intro r
  have hfirst : Token.first '"' (Quoted.encode s.toList ++ '"' :: r) =
      some (.string s, (Quoted.encode s.toList).length + 1) := by
    simp [Token.first, Quoted.decode_encode]
  have htext : (Quoted.quote s).toList ++ r = '"' :: (Quoted.encode s.toList ++ '"' :: r) := by
    simp [Quoted.toList_quote]
  have hdrop : (Quoted.encode s.toList ++ '"' :: r).drop ((Quoted.encode s.toList).length + 1) =
      r := by
    rw [List.drop_append]
    simp
  rw [htext, Token.scan_cons (by decide) hfirst, hdrop]
  rfl

theorem intercalate {α : Type} {text : α → List Char} {tokens : α → List Token}
    (hsep : Scans cs ts) (h : ∀ a, Scans (text a) (tokens a)) (as : List α) :
    Scans (cs.intercalate (as.map text)) (ts.intercalate (as.map tokens)) := by
  induction as with
  | nil => exact blanks rfl
  | cons a as ih =>
    cases as with
    | nil => simpa using h a
    | cons b bs =>
      simp only [List.map_cons, List.intercalate_cons_cons] at ih ⊢
      exact ((h a).append hsep).append ih

theorem scan_eq (h : Scans cs ts) : Token.scan cs = some ts := by
  have hall := h []
  rwa [List.append_nil, show Token.scan [] = some [] from rfl, Option.map_some,
    List.append_nil] at hall

end Scans

namespace Value.Reader
variable {ms : List (String × Value)} {key : String} {fs : List Frame} {phase : Phase}

/-- A string as the value of a key. -/
def memberTokens (e : String × String) : List Token := [.string e.1, .colon, .string e.2]

def member (e : String × String) : String × Value := (e.1, .string e.2)

theorem run_member (hphase : phase = .firstKey ∨ phase = .key) (e : String × String) :
    run ⟨.object ms key :: fs, phase⟩ (memberTokens e) =
      some ⟨.object ms e.1 :: fs, .after (.string e.2)⟩ := by
  rcases hphase with rfl | rfl <;> rfl

/-- The members of an object, all of them strings, up to its end. -/
theorem run_members (hphase : phase = .firstKey ∨ phase = .key) (e : String × String)
    (es : List (String × String)) :
    run ⟨.object ms key :: fs, phase⟩
        ([Token.comma].intercalate ((e :: es).map memberTokens) ++ [.closeObject]) =
      some ⟨fs, .after (closeObject (((e :: es).map member).reverse ++ ms))⟩ := by
  induction es generalizing e ms key phase with
  | nil =>
    rw [List.map_singleton, List.intercalate_singleton, run_append, run_member hphase]
    rfl
  | cons f es ih =>
    have hrest := @ih (member e :: ms) e.1 .key (Or.inr rfl) f
    rw [List.map_cons, List.map_cons, List.intercalate_cons_cons, List.append_assoc,
      List.append_assoc, run_append, run_member hphase, Option.bind_some, run_append]
    rw [List.map_cons] at hrest
    change run ⟨.object (member e :: ms) e.1 :: fs, .key⟩ _ = _
    rw [hrest]
    simp

end Value.Reader
end StylePack.Json

namespace StylePack.Descriptor
open Json Json.Value

theorem scans_styleLine (e : String × String) :
    Scans (styleLine e).toList (Reader.memberTokens e) := by
  have htext : (styleLine e).toList =
      "    ".toList ++ ((Quoted.quote e.1).toList ++ ([':'] ++ ([' '] ++
        (Quoted.quote e.2).toList))) := by
    simp [styleLine]
  rw [htext]
  exact (Scans.blanks (by decide)).append ((Scans.quote e.1).append (Scans.colon.append
    ((Scans.blank (by decide)).append (Scans.quote e.2))))

/-- The tokens of the styles. -/
def stylesTokens (es : List (String × String)) : List Token :=
  .openObject :: ([Token.comma].intercalate (es.map Reader.memberTokens) ++ [.closeObject])

theorem scans_stylesText (styles : Styles) :
    Scans (stylesText styles).toList (stylesTokens styles.entries) := by
  unfold stylesText
  split
  · rename_i hempty
    rw [List.isEmpty_iff.mp hempty]
    exact Scans.openObject.append Scans.closeObject
  · have htext : ("\x7b\n" ++ ",\n".intercalate (styles.entries.map styleLine) ++ "\n  \x7d").toList
        = ['\x7b'] ++ (['\n'] ++ (",\n".toList.intercalate
          (styles.entries.map fun e => (styleLine e).toList) ++ ("\n  ".toList ++ ['\x7d']))) := by
      simp [String.toList_intercalate, Function.comp_def]
    have hsep : Scans ",\n".toList [.comma] :=
      Scans.comma.append (Scans.blank (c := '\n') (by decide))
    rw [htext]
    exact Scans.openObject.append ((Scans.blank (by decide)).append
      ((hsep.intercalate scans_styleLine styles.entries).append
        ((Scans.blanks (by decide)).append Scans.closeObject)))

theorem scans_toJson (d : Descriptor) : Scans d.toJson.toList
    ([.openObject, .string "name", .colon, .string d.name, .comma, .string "styles", .colon] ++
      (stylesTokens d.styles.entries ++ [.closeObject])) := by
  have htext : d.toJson.toList = ['\x7b'] ++ ("\n  ".toList ++ ((Quoted.quote "name").toList ++
      ([':'] ++ ([' '] ++ ((Quoted.quote d.name).toList ++ ([','] ++ ("\n  ".toList ++
        ((Quoted.quote "styles").toList ++ ([':'] ++ ([' '] ++ ((stylesText d.styles).toList ++
          (['\n'] ++ ['\x7d'])))))))))))) := by
    have hname : (Quoted.quote "name").toList = "\"name\"".toList := by decide
    have hstyles : (Quoted.quote "styles").toList = "\"styles\"".toList := by decide
    simp [toJson, hname, hstyles]
  rw [htext]
  exact Scans.openObject.append ((Scans.blanks (by decide)).append ((Scans.quote "name").append
    (Scans.colon.append ((Scans.blank (by decide)).append ((Scans.quote d.name).append
      (Scans.comma.append ((Scans.blanks (by decide)).append ((Scans.quote "styles").append
        (Scans.colon.append ((Scans.blank (by decide)).append ((scans_stylesText d.styles).append
          ((Scans.blank (by decide)).append Scans.closeObject))))))))))))

/-- The object that a descriptor is printed as. -/
def toValue (d : Descriptor) : Value :=
  .object [("name", .string d.name), ("styles", .object (d.styles.entries.map Reader.member))]

theorem run_stylesTokens {fs : List Frame} (hfs : fs.length < Reader.maxDepth)
    {es : List (String × String)} (h : (es.map Prod.fst).Nodup) :
    Reader.run ⟨fs, .value⟩ (stylesTokens es) =
      some ⟨fs, .after (.object (es.map Reader.member))⟩ := by
  have henter : Reader.step ⟨fs, .value⟩ .openObject =
      some ⟨.object [] "" :: fs, .firstKey⟩ := by
    simp [Reader.step, Reader.begin, Reader.enter, hfs]
  rw [stylesTokens, Reader.run, henter, Option.bind_some]
  cases es with
  | nil => rfl
  | cons e es =>
    have hkeys : ((e :: es).map Reader.member).map Prod.fst = (e :: es).map Prod.fst := by
      rw [List.map_map]
      rfl
    have hentries : (OrderedMap.ofList ((e :: es).map Reader.member)).entries =
        (e :: es).map Reader.member := by
      refine OrderedMap.entries_insertAll .empty ?_
      rwa [OrderedMap.entries_empty, List.nil_append, hkeys]
    rw [Reader.run_members (Or.inl rfl), List.append_nil, Reader.closeObject, List.reverse_reverse,
      hentries]

theorem parse?_toJson (d : Descriptor) : Value.parse? d.toJson = some d.toValue := by
  have hopen : Reader.run ⟨[], .value⟩ [.openObject, .string "name", .colon, .string d.name,
      .comma, .string "styles", .colon] =
        some ⟨[.object [("name", .string d.name)] "styles"], .value⟩ := rfl
  rw [Value.parse?, (scans_toJson d).scan_eq]
  change (Reader.run _ _).bind _ = _
  rw [Reader.run_append, hopen, Option.bind_some, Reader.run_append,
    run_stylesTokens (by simp [Reader.maxDepth]) d.styles.nodup]
  rfl

theorem lenientStyles_member (es : List (String × String)) :
    lenientStyles (es.map Reader.member) = es := by
  rw [lenientStyles, List.filterMap_map]
  exact List.filterMap_some

/-- A descriptor that was printed is read back as it was. -/
theorem ofJson?_toJson (d : Descriptor) : ofJson? d.toJson = some d := by
  have hname : d.toValue.get? "name" = some (.string d.name) := rfl
  have hstyles : d.toValue.get? "styles" =
      some (.object (d.styles.entries.map Reader.member)) := rfl
  simp only [ofJson?, parse?_toJson, hname, hstyles, Value.string?, Value.members?,
    Option.bind_eq_bind, Option.bind_some, lenientStyles_member, OrderedMap.ofList_entries]
  rfl

end StylePack.Descriptor
