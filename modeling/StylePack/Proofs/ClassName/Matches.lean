import StylePack.Proofs.ClassName

/-! Where class names stand in a text. A name stands at a place if a point is there and the name is
all that follows of the characters of class names (`NameAt`). The names that are found from the
left on, each one behind the one before it, are the names at all places (`matches_iff`), although
the next one is looked for only where the last one ends. So the class names of a selector list are
those at the places of its text, in their order (`inSelector_matches`). -/
namespace StylePack.ClassName
open Text

/-- At place `i` of a text stands a point, and directly behind it a name that is not empty and that
no further character of class names follows. -/
def NameAt (cs : List Char) (i : Nat) (name : List Char) : Prop :=
  ∃ before after, cs = before ++ '.' :: (name ++ after) ∧ before.length = i ∧ name ≠ [] ∧
    (∀ c ∈ name, isPart c = true) ∧ ∀ c ∈ after.head?, isPart c = false

/-- The names that are found in a text from the left on. Each is the first one in what is left of
the text, takes in all characters that it can, and the next one is looked for behind it. -/
inductive Matches : List Char → List (List Char) → Prop
  | none {cs} (h : ∀ i name, ¬ NameAt cs i name) : Matches cs []
  | next {before name after names}
      (hname : NameAt (before ++ '.' :: (name ++ after)) before.length name)
      (hfirst : ∀ i other, NameAt (before ++ '.' :: (name ++ after)) i other → before.length ≤ i)
      (hrest : Matches after names) : Matches (before ++ '.' :: (name ++ after)) (name :: names)

variable {c : Char} {cs ds before name after : List Char} {names : List (List Char)} {i : Nat}

/-- A run of characters that cannot be made longer is what is taken while there are such. -/
theorem takeWhile_eq (hname : ∀ c ∈ name, isPart c = true)
    (hafter : ∀ c ∈ after.head?, isPart c = false) : (name ++ after).takeWhile isPart = name := by
  rw [List.takeWhile_append_of_pos hname]
  cases after with
  | nil => exact List.append_nil name
  | cons c after =>
    rw [List.takeWhile_cons_of_neg (by simp [hafter c rfl]), List.append_nil]

theorem nameAt_zero_iff :
    NameAt (c :: cs) 0 name ↔ c = '.' ∧ cs.takeWhile isPart ≠ [] ∧ name = cs.takeWhile isPart := by
  constructor
  · rintro ⟨before, after, htext, hlength, hne, hname, hafter⟩
    obtain rfl := List.eq_nil_of_length_eq_zero hlength
    obtain ⟨rfl, rfl⟩ := List.cons.inj htext
    rw [takeWhile_eq hname hafter]
    exact ⟨rfl, hne, rfl⟩
  · rintro ⟨rfl, hne, rfl⟩
    refine ⟨[], cs.dropWhile isPart, ?_, rfl, hne, fun c hc => List.mem_takeWhile_imp hc, ?_⟩
    · rw [List.takeWhile_append_dropWhile]
      rfl
    · intro c hc
      have hdrop := List.head?_dropWhile_not isPart cs
      rw [Option.mem_def.mp hc] at hdrop
      simpa using hdrop

theorem nameAt_succ_iff : NameAt (c :: cs) (i + 1) name ↔ NameAt cs i name := by
  constructor
  · rintro ⟨before, after, htext, hlength, hname⟩
    cases before with
    | nil => cases hlength
    | cons b before =>
      obtain ⟨-, rfl⟩ := List.cons.inj htext
      exact ⟨before, after, rfl, Nat.succ.inj hlength, hname⟩
  · rintro ⟨before, after, rfl, rfl, hname⟩
    exact ⟨c :: before, after, rfl, rfl, hname⟩

/-- A name that stands in front of a point ends there. -/
theorem NameAt.append (h : NameAt cs i name) (ds : List Char) :
    NameAt (cs ++ '.' :: ds) i name := by
  obtain ⟨before, after, rfl, hlength, hne, hname, hafter⟩ := h
  refine ⟨before, after ++ '.' :: ds, by simp, hlength, hne, hname, fun c hc => ?_⟩
  cases after with
  | nil =>
    obtain rfl : '.' = c := by simpa using hc
    exact isPart_dot
  | cons a after => exact hafter c hc

theorem NameAt.lt_length (h : NameAt cs i name) : i < cs.length := by
  obtain ⟨before, after, rfl, rfl, -⟩ := h
  rw [List.length_append, List.length_cons]
  omega

/-- The names of a text with the places where they stand, from a number on. -/
def placed (i : Nat) : List Char → List (Nat × List Char)
  | [] => []
  | c :: r =>
    if c = '.' ∧ r.takeWhile isPart ≠ [] then (i, r.takeWhile isPart) :: placed (i + 1) r
    else placed (i + 1) r

theorem map_snd_placed (i : Nat) (cs : List Char) : (placed i cs).map Prod.snd = dotted cs := by
  induction cs generalizing i with
  | nil => rfl
  | cons c cs ih =>
    rw [placed, dotted]
    split_ifs
    · rw [List.map_cons, ih]
    · exact ih (i + 1)

/-- What is placed is each name where it stands. -/
theorem mem_placed_iff {n : Nat} {place : Nat × List Char} :
    place ∈ placed n cs ↔ ∃ i, place.1 = n + i ∧ NameAt cs i place.2 := by
  induction cs generalizing n with
  | nil =>
    refine ⟨fun h => absurd h List.not_mem_nil, fun ⟨i, _, hname⟩ => ?_⟩
    exact absurd hname.lt_length (Nat.not_lt_zero i)
  | cons c cs ih =>
    have hrest : (∃ i, place.1 = n + 1 + i ∧ NameAt cs i place.2) ↔
        ∃ i, place.1 = n + (i + 1) ∧ NameAt (c :: cs) (i + 1) place.2 := by
      simp only [nameAt_succ_iff, Nat.add_assoc, Nat.add_comm 1]
    have hcases : (∃ i, place.1 = n + i ∧ NameAt (c :: cs) i place.2) ↔
        place.1 = n ∧ NameAt (c :: cs) 0 place.2 ∨
          ∃ i, place.1 = n + (i + 1) ∧ NameAt (c :: cs) (i + 1) place.2 := by
      constructor
      · rintro ⟨_ | i, hi, hname⟩
        · exact Or.inl ⟨hi, hname⟩
        · exact Or.inr ⟨i, hi, hname⟩
      · rintro (⟨hi, hname⟩ | ⟨i, hi, hname⟩)
        · exact ⟨0, hi, hname⟩
        · exact ⟨i + 1, hi, hname⟩
    rw [hcases, ← hrest, ← ih, nameAt_zero_iff, placed]
    split_ifs with hpoint
    · rw [List.mem_cons, Prod.ext_iff]
      simp [hpoint]
    · rw [or_iff_right fun h => hpoint ⟨h.2.1, h.2.2.1⟩]

theorem placed_sorted (n : Nat) (cs : List Char) :
    (placed n cs).Pairwise fun a b => a.1 < b.1 := by
  induction cs generalizing n with
  | nil => exact List.Pairwise.nil
  | cons c cs ih =>
    rw [placed]
    split_ifs
    · refine List.pairwise_cons.mpr ⟨fun place hplace => ?_, ih (n + 1)⟩
      obtain ⟨i, hi, -⟩ := mem_placed_iff.mp hplace
      rw [hi]
      omega
    · exact ih (n + 1)

/-- The names after points are those at all places of the text, in the order of the places. -/
theorem exists_places (cs : List Char) : ∃ places : List (Nat × List Char),
    (places.Pairwise fun a b => a.1 < b.1) ∧ (∀ i name, (i, name) ∈ places ↔ NameAt cs i name) ∧
      dotted cs = places.map Prod.snd := by
  refine ⟨placed 0 cs, placed_sorted 0 cs, fun i name => ?_, (map_snd_placed 0 cs).symm⟩
  rw [mem_placed_iff]
  simp

theorem dotted_eq_nil_of_forall (h : ∀ i name, ¬ NameAt cs i name) : dotted cs = [] := by
  obtain ⟨places, -, hmem, hdotted⟩ := exists_places cs
  have hnil : places = [] :=
    List.eq_nil_iff_forall_not_mem.mpr fun place hplace => h _ _ ((hmem _ _).mp hplace)
  rw [hdotted, hnil, List.map_nil]

theorem dotted_of_isPart (h : ∀ c ∈ cs, isPart c = true) (ds : List Char) :
    dotted (cs ++ ds) = dotted ds := by
  induction cs with
  | nil => rfl
  | cons c cs ih =>
    have hpoint : c ≠ '.' := by
      rintro rfl
      exact absurd (h '.' List.mem_cons_self) (by decide)
    rw [List.cons_append, dotted_cons hpoint, ih fun c hc => h c (List.mem_cons_of_mem _ hc)]

/-- The first name of a text, and the names behind it. -/
theorem dotted_first (hname : NameAt (before ++ '.' :: (name ++ after)) before.length name)
    (hfirst : ∀ i other, NameAt (before ++ '.' :: (name ++ after)) i other → before.length ≤ i) :
    dotted (before ++ '.' :: (name ++ after)) = name :: dotted after := by
  obtain ⟨before', after', htext, hlength, hne, hpart, hafter⟩ := hname
  obtain ⟨rfl, hbehind⟩ := List.append_inj htext hlength.symm
  obtain rfl : after = after' := List.append_cancel_left (List.cons.inj hbehind).2
  have hnone : dotted before = [] := by
    refine dotted_eq_nil_of_forall fun i other hother => ?_
    exact absurd (hfirst i other (hother.append _)) (Nat.not_le.mpr hother.lt_length)
  have htake := takeWhile_eq hpart hafter
  rw [dotted_append_cons isPart_dot, hnone, List.nil_append, dotted, htake, if_pos ⟨rfl, hne⟩,
    dotted_of_isPart hpart]

/-- The names found from the left on are the names that follow a point. -/
theorem matches_iff : Matches cs names ↔ names = dotted cs := by
  have hdotted : ∀ {cs names}, Matches cs names → names = dotted cs := by
    intro cs names h
    induction h with
    | none h => exact (dotted_eq_nil_of_forall h).symm
    | next hname hfirst _ ih => rw [dotted_first hname hfirst, ih]
  refine ⟨hdotted, ?_⟩
  rintro rfl
  -- the induction is on the length of the text, of which the first name takes a part
  induction hn : cs.length using Nat.strong_induction_on generalizing cs with
  | _ n ih =>
    obtain ⟨places, hsorted, hmem, hplaces⟩ := exists_places cs
    cases places with
    | nil =>
      rw [hplaces]
      exact Matches.none fun i name hname => absurd ((hmem i name).mpr hname) List.not_mem_nil
    | cons first rest =>
      obtain ⟨i, name⟩ := first
      have hname := (hmem i name).mp List.mem_cons_self
      have hfirst : ∀ j other, NameAt cs j other → i ≤ j := by
        intro j other hother
        rcases List.mem_cons.mp ((hmem j other).mpr hother) with heq | hrest
        · exact (Prod.ext_iff.mp heq).1.ge
        · exact ((List.pairwise_cons.mp hsorted).1 _ hrest).le
      obtain ⟨before, after, htext, hplace, -⟩ := (hmem i name).mp List.mem_cons_self
      subst htext hplace
      have hlt : after.length < n := by
        rw [← hn, List.length_append, List.length_cons, List.length_append]
        omega
      have hmatches := Matches.next hname hfirst (ih _ hlt rfl)
      rwa [← hdotted hmatches]

/-- The class names of a selector list, with any way to find the names of a text from the left on.
To cut the list at its commas, to trim the pieces and to leave out empty ones changes nothing of
what is found: the names at all places of the text, in the order of the places. Each is given once,
where it comes first. So the names of two lists with a comma between them are those of the first
and then those that are new in the second. -/
theorem inSelector_matches {found : List Char → List (List Char)}
    (hfound : ∀ cs, Matches cs (found cs)) (selector : String) :
    inSelector selector =
        firstSeen (((branches selector.toList).flatMap found).map String.ofList) ∧
      (inSelector selector).Nodup ∧
      (branches selector.toList).flatMap found = found selector.toList ∧
      (∃ places : List (Nat × List Char), (places.Pairwise fun a b => a.1 < b.1) ∧
        (∀ i name, (i, name) ∈ places ↔ NameAt selector.toList i name) ∧
          found selector.toList = places.map Prod.snd) ∧
      ∀ other : String, inSelector (selector ++ "," ++ other) =
        firstSeen (inSelector selector ++ inSelector other) := by
  obtain rfl : found = dotted := funext fun cs => matches_iff.mp (hfound cs)
  exact ⟨rfl, nodup_inSelector selector, flatMap_dotted_branches selector.toList,
    exists_places selector.toList,
    inSelector_separated (c := ',') rfl isPart_comma (by decide) selector⟩

/-- Points without a name, a name behind a letter that no name holds, and one that comes twice. -/
theorem inSelector_matches_twice :
    (∀ cs, Matches cs (dotted cs)) ∧
      inSelector (" .a-1 >..b. " ++ "," ++ ",é.c_:not(.a-1)") = ["a-1", "b", "c_"] :=
  have hfound : ∀ cs, Matches cs (dotted cs) := fun _ => matches_iff.mpr rfl
  ⟨hfound, ((inSelector_matches hfound " .a-1 >..b. ").2.2.2.2 ",é.c_:not(.a-1)").trans (by decide)⟩

end StylePack.ClassName
