import StylePack.Proofs.ClassName
import StylePack.Proofs.Css.Tidy
import StylePack.Proofs.Extract.Pairs
import StylePack.Proofs.Path

/-! The packages of a stylesheet are named by its classes (`isClass_of_mem_extract`). A class name
can be the stem of a file's name (`IsClass.isValidName`), and it is text that the reader of
stylesheets keeps whole (`IsClass.neat`). -/
namespace StylePack
open Css Text
variable {name : String} {c : Char}

namespace ClassName

theorem isPlain_of_isPart (h : isPart c = true) : Token.isPlain c = true :=
  forall_isPart (by decide +kernel) h

namespace IsClass

theorem isValidName (h : IsClass name) : Package.isValidName name = true := by
  have hpoint : '.' ∉ name.toList := h.notMem (by decide)
  refine (Package.isValidName_iff name).mpr ⟨fun he => h.ne_nil (he ▸ rfl), h.notMem (by decide),
    h.notMem (by decide), fun hpoints => hpoint (hpoints.subset (by simp)), ?_⟩
  rintro rfl
  exact hpoint (by decide)

/-- A class name is read back as it was written. -/
theorem neat (h : IsClass name) : Neat name where
  plain c hc := isPlain_of_isPart (h.isPart c hc)
  balanced := by
    have hround : Token.NoRound name.toList := fun c hc =>
      ⟨fun he => h.notMem (c := '(') (by decide) (he ▸ hc),
        fun he => h.notMem (c := ')') (by decide) (he ▸ hc)⟩
    have hall := Token.balanced_noRound hround 0 []
    rwa [List.append_nil] at hall
  noUrl := Tree.not_holdsUrl_of_notMem (h.notMem (by decide))
  trimmed := trim_eq_self
    (fun c hc => isBlank_eq_false (h.isPart c (List.mem_of_mem_head? hc)))
    fun c hc => isBlank_eq_false (h.isPart c (List.mem_of_getLast? hc))

end IsClass

end ClassName

/-- A package is named by a class. -/
theorem isClass_of_mem_extract {sheet : Sheet} {p : Descriptor} (h : p ∈ extract sheet) :
    ClassName.IsClass p.name := by
  rw [extract_eq] at h
  obtain ⟨name, hname, rfl⟩ := List.mem_map.mp h
  obtain ⟨pair, hpair, rfl⟩ := List.mem_map.mp (ClassName.mem_firstSeen.mp hname)
  obtain ⟨selector, hselector⟩ := Extract.exists_selector_of_mem_pairsAll hpair
  exact ClassName.isClass_of_mem_inSelector hselector

end StylePack
