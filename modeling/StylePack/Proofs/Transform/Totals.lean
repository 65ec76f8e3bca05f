import Mathlib.Data.List.Dedup
import StylePack.Proofs.Transform.Contents
import StylePack.Proofs.Transform.Injected

/-! The report of a transform in terms of the content of the stylesheet: the problems of the
directives in their order, and how many aliases are bound and rules expanded. -/
namespace StylePack
open Css Css.Sheet Css.Tree
variable {P : PackageTable} {A : String → Option String} {s : Sheet}

theorem AliasTable.mem_keys_iff {t : AliasTable} {name : String} :
    name ∈ t.bindings.keys ↔ (t.get? name).isSome = true := by
  rw [← OrderedMap.contains_iff]
  rfl

/-- A table has as many entries as there are different names to look up in it. -/
theorem AliasTable.size_eq {t : AliasTable} {bs : List (String × String)}
    (h : t.get? = fun name => bs.lookup name) : t.size = (bs.map Prod.fst).dedup.length := by
  have hperm : t.bindings.keys.Perm (bs.map Prod.fst).dedup := by
    refine (List.perm_ext_iff_of_nodup t.bindings.nodup_keys (List.nodup_dedup _)).mpr ?_
    intro name
    rw [AliasTable.mem_keys_iff, h, List.lookup_isSome_iff, List.mem_dedup, List.mem_map]
    refine exists_congr fun b => and_congr_right fun _ => ?_
    rw [beq_iff_eq, eq_comm]
  rw [← hperm.length_eq, OrderedMap.keys, List.length_map]
  rfl

namespace Expansion

/-- Where the `@use` directives stand after the `@package` directives were handled. -/
theorem Registered.sites_eq {e : Expansion} (hs : Linked s)
    (h : Registered P s (s.topmost (fun i => isPackage (s.kind i)) root) e) :
    (e.sheet.topmost (fun i => isUse (e.sheet.kind i)) root).map (siteAt e.sheet) =
      sites isPackage false false s.contents := by
  rw [← usesBelow_none, sites_contents h.rewritten.linked (by simp), h.contents_eq hs,
    sites_boundAll]

end Expansion

open Expansion

theorem transform_snd (P : PackageTable) (s : Sheet) {st : Expansion × Nat}
    (h : ((Expansion.start s).registerAll P (s.atRules "package")).expandAll P
      (((Expansion.start s).registerAll P (s.atRules "package")).sheet.atRules "use") = st) :
    (transform P s).2 = ⟨st.1.diagnostics, P.size, st.1.aliases.size, st.2⟩ := by
  subst h
  rfl

/-- Both halves of a transform are over: what is known then. -/
theorem counted_transform (P : PackageTable) (h : Linked s) :
    ∃ (mid : Sheet) (done : List Nat) (st : Expansion × Nat),
      Counted P (boundTo P s.contents) mid
        ((outermostAll isPackage s.contents).flatMap (packageProblems P (boundTo P s.contents)))
        done st ∧
      done.map (siteAt mid) = sites isPackage false false s.contents ∧
      (transform P s).2 = ⟨st.1.diagnostics, P.size, st.1.aliases.size, st.2⟩ := by
  have hreg := Registered.run P h
  have hcount := Counted.run P hreg.rewritten.linked hreg.used_eq
  rw [hreg.aliases_eq, hreg.diagnostics_eq, ← outermostAll_contents] at hcount
  exact ⟨_, _, _, hcount, hreg.sites_eq h, transform_snd P s rfl⟩

/-- The problems of the `@package` directives come first, then those of the `@use` directives. -/
theorem diagnostics_transform (P : PackageTable) (h : Linked s) :
    (transform P s).2.diagnostics =
      (outermostAll isPackage s.contents).flatMap (packageProblems P (boundTo P s.contents)) ++
        (sites isPackage false false s.contents).flatMap
          (Site.problems P (boundTo P s.contents)) := by
  obtain ⟨mid, done, st, hcount, hsites, hreport⟩ := counted_transform P h
  rw [hreport, hcount.used.diagnostics_eq, ← hsites, List.flatMap_map, useProblemsAt_eq_problems]

theorem aliasesRegistered_transform (P : PackageTable) (h : Linked s) :
    (transform P s).2.aliasesRegistered =
      (((outermostAll isPackage s.contents).filterMap (binding? P)).map Prod.fst).dedup.length := by
  obtain ⟨mid, done, st, hcount, -, hreport⟩ := counted_transform P h
  rw [hreport]
  exact AliasTable.size_eq hcount.used.get?_eq

theorem rulesExpanded_transform (P : PackageTable) (h : Linked s) :
    (transform P s).2.rulesExpanded =
      (sites isPackage false false s.contents).countP (Site.injects P (boundTo P s.contents)) := by
  obtain ⟨mid, done, st, hcount, hsites, hreport⟩ := counted_transform P h
  rw [hreport, hcount.count_eq, ← hsites, List.countP_map]
  rfl

end StylePack
