/-! Equality of texts up to the case of the letters `A`–`Z`; other letters must agree exactly. -/
namespace StylePack.Text

/-- A letter from `A` to `Z` in lower case; any other character as it is. -/
def foldCase (c : Char) : Char :=
  if 'A' ≤ c ∧ c ≤ 'Z' then Char.ofNat (c.toNat + 32) else c

/-- A character in front of the small letters comes from itself only. -/
theorem eq_of_foldCase_eq {c x : Char} (h : foldCase c = x) (hx : x.toNat < 97) : c = x := by
  unfold foldCase at h
  split at h
  · next hletter =>
    have hlow : 65 ≤ c.toNat := hletter.1
    have hhigh : c.toNat ≤ 90 := hletter.2
    have hvalid : (c.toNat + 32).isValidChar := Or.inl (by omega)
    have hnat : x.toNat = c.toNat + 32 := by
      rw [← h, Char.ofNat, dif_pos hvalid]
      rfl
    omega
  · exact h

/-- Equality up to the case of ASCII letters. -/
def sameLetters (xs ys : List Char) : Bool := xs.map foldCase == ys.map foldCase

/-- `sameLetters` for string values. -/
def sameName (s t : String) : Bool := sameLetters s.toList t.toList

@[simp] theorem sameLetters_refl (xs : List Char) : sameLetters xs xs = true := by
  simp [sameLetters]

theorem sameLetters_comm (xs ys : List Char) : sameLetters xs ys = sameLetters ys xs := by
  simp only [sameLetters, Bool.beq_comm]

theorem sameLetters_trans {xs ys zs : List Char} (h : sameLetters xs ys)
    (h' : sameLetters ys zs) : sameLetters xs zs := by
  simp_all [sameLetters]

example : sameName "ImPortant" "important" = true := by decide

example : sameName "É" "é" = false := by decide

end StylePack.Text
