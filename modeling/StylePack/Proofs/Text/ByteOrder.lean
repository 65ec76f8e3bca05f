import Mathlib.Tactic.SplitIfs

/-! Strings are ordered by their characters, and so in the same way by their bytes. What is sorted
by strings stands in this order. -/
namespace StylePack.Text
variable {c d : Char} {m n : Nat} {cs ds : List Char}

/-- The bytes of a string. -/
def bytes (s : String) : List UInt8 := s.toUTF8.data.toList

theorem bytes_ofList (cs : List Char) :
    bytes (String.ofList cs) = cs.flatMap String.utf8EncodeChar := by
  rw [bytes, String.toUTF8_eq_toByteArray, String.toByteArray_ofList, List.utf8Encode,
    List.data_toByteArray]

theorem ofNat_cons_lt (hm : m < 256) (hn : n < 256) (r r' : List UInt8) :
    UInt8.ofNat m :: r < UInt8.ofNat n :: r' ↔ m < n ∨ m = n ∧ r < r' := by
  rw [List.cons_lt_cons_iff, UInt8.lt_iff_toNat_lt, ← UInt8.toNat_inj,
    UInt8.toNat_ofNat_of_lt' hm, UInt8.toNat_ofNat_of_lt' hn]

/-- Of two numbers in base 64 the smaller one is so by the digits in front or by the last digit. -/
theorem digits_lt (h : m < n) : m / 64 < n / 64 ∨ m / 64 = n / 64 ∧ m % 64 < n % 64 := by omega

/-- The bytes of a smaller character come first, whatever follows them. -/
theorem utf8EncodeChar_append_lt (h : c < d) (r r' : List UInt8) :
    String.utf8EncodeChar c ++ r < String.utf8EncodeChar d ++ r' := by
  have hval : c.val.toNat < d.val.toNat := h
  have hbound : d.val.toNat < 0x110000 := by
    rcases d.valid with hd | hd
    · have hlow : d.val.toNat < 0xd800 := hd
      omega
    · exact hd.2
  simp only [String.utf8EncodeChar]
  generalize c.val.toNat = m at hval
  generalize d.val.toNat = n at hval hbound
  by_cases hlong : m ≤ 0xffff
  · split_ifs
    all_goals simp (disch := omega) only [List.cons_append, List.nil_append, ofNat_cons_lt]
    all_goals omega
  · -- both take four bytes, which are compared digit by digit
    have hfront : m / 64 / 64 = m / 4096 ∧ n / 64 / 64 = n / 4096 ∧
        m / 4096 / 64 = m / 262144 ∧ n / 4096 / 64 = n / 262144 := by omega
    simp (disch := omega) only [List.cons_append, List.nil_append, if_neg, ofNat_cons_lt]
    rcases digits_lt hval with h64 | h64
    · rcases digits_lt h64 with h4096 | h4096
      · rw [hfront.1, hfront.2.1] at h4096
        rcases digits_lt h4096 with h262144 | h262144
        · omega
        · omega
      · omega
    · omega

theorem flatMap_utf8EncodeChar_lt (h : cs < ds) :
    cs.flatMap String.utf8EncodeChar < ds.flatMap String.utf8EncodeChar := by
  induction cs generalizing ds with
  | nil =>
    cases ds with
    | nil => exact absurd h (List.not_lt_nil [])
    | cons d ds =>
      obtain ⟨b, bs, hbs⟩ := List.exists_cons_of_ne_nil (String.utf8EncodeChar_ne_nil (c := d))
      rw [List.flatMap_nil, List.flatMap_cons, hbs]
      exact List.nil_lt_cons b _
  | cons c cs ih =>
    cases ds with
    | nil => exact absurd h (List.not_lt_nil _)
    | cons d ds =>
      rw [List.flatMap_cons, List.flatMap_cons]
      rcases List.cons_lt_cons_iff.mp h with hlt | ⟨rfl, hlt⟩
      · exact utf8EncodeChar_append_lt hlt _ _
      · exact List.append_left_lt (ih hlt)

theorem bytes_lt {s t : String} (h : s < t) : bytes s < bytes t := by
  rw [← String.ofList_toList (s := s), ← String.ofList_toList (s := t), bytes_ofList, bytes_ofList]
  exact flatMap_utf8EncodeChar_lt (String.lt_iff.mp h)

theorem pairwise_mergeSort_by {α : Type} (f : α → String) (xs : List α) :
    (xs.mergeSort fun a b => decide (f a ≤ f b)).Pairwise fun a b => f a ≤ f b := by
  refine (List.pairwise_mergeSort (fun a b c hab hbc => ?_) (fun a b => ?_) xs).imp
    of_decide_eq_true
  · exact decide_eq_true (String.le_trans (of_decide_eq_true hab) (of_decide_eq_true hbc))
  · simpa using String.le_total (f a) (f b)

/-- Strings that are sorted do not tell the order that they came in. -/
theorem mergeSort_eq_of_perm {ss ts : List String} (h : ss.Perm ts) :
    (ss.mergeSort fun a b => decide (a ≤ b)) = ts.mergeSort fun a b => decide (a ≤ b) :=
  List.Perm.eq_of_pairwise (fun _ _ _ _ => String.le_antisymm) (pairwise_mergeSort_by id ss)
    (pairwise_mergeSort_by id ts)
    ((List.mergeSort_perm _ _).trans (h.trans (List.mergeSort_perm _ _).symm))

/-- Entries with different names are in strict order once they are sorted by their names. -/
theorem pairwise_mergeSort_fst {α : Type} {es : List (String × α)}
    (h : (es.map Prod.fst).Nodup) :
    (es.mergeSort fun a b => decide (a.1 ≤ b.1)).Pairwise fun a b => a.1 < b.1 := by
  have hne : (es.mergeSort fun a b => decide (a.1 ≤ b.1)).Pairwise fun a b => a.1 ≠ b.1 :=
    (List.mergeSort_perm _ _).symm.pairwise (List.pairwise_map.mp h) Ne.symm
  refine ((pairwise_mergeSort_by Prod.fst es).and hne).imp fun {a b} hab => ?_
  exact String.not_le.mp fun hba => hab.2 (String.le_antisymm hab.1 hba)

end StylePack.Text
