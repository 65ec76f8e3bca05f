import Mathlib.Logic.Function.Basic
import Mathlib.Tactic.SplitIfs
import StylePack.OrderedMap

/-! What is found in lists of pairs with different keys. -/
namespace StylePack.OrderedMap
variable {α β : Type} [DecidableEq α] {k j : α} {v : β} {es : List (α × β)}

theorem lookup_filter_of_ne (h : j ≠ k) (es : List (α × β)) :
    lookup j (es.filter (·.1 ≠ k)) = lookup j es := by
  induction es with
  | nil => rfl
  | cons e es ih =>
    by_cases he : e.1 = k
    · have hne : ¬ e.1 = j := fun hj => h (hj.symm.trans he)
      rw [List.filter_cons_of_neg (by simpa using he), ih, lookup, if_neg hne]
    · rw [List.filter_cons_of_pos (by simpa using he), lookup, lookup, ih]

theorem mem_keys_insert {m : OrderedMap α β} : j ∈ (m.insert k v).keys ↔ j = k ∨ j ∈ m.keys := by
  rw [keys_insert]
  split_ifs with h
  · exact ⟨Or.inr, fun hj => hj.elim (fun he => he ▸ h) id⟩
  · rw [List.mem_append, List.mem_singleton, or_comm]

/-- Takes a key out. -/
def erase (m : OrderedMap α β) (k : α) : OrderedMap α β :=
  ⟨m.entries.filter (·.1 ≠ k), m.nodup.sublist (List.filter_sublist.map Prod.fst)⟩

theorem get?_erase (m : OrderedMap α β) (k j : α) :
    (m.erase k).get? j = if j = k then none else m.get? j := by
  split_ifs with h
  · rw [Option.eq_none_iff_forall_not_mem]
    intro v hv
    have hj := (lookup_isSome_iff j (m.erase k).entries).mp (Option.isSome_of_mem hv)
    obtain ⟨e, he, rfl⟩ := List.mem_map.mp hj
    exact of_decide_eq_true (List.mem_filter.mp he).2 h
  · exact lookup_filter_of_ne h m.entries

theorem mem_of_lookup (h : lookup k es = some v) : (k, v) ∈ es := by
  induction es with
  | nil => cases h
  | cons e es ih =>
    rw [lookup] at h
    split_ifs at h with he
    · cases h
      exact he ▸ List.mem_cons_self
    · exact List.mem_cons_of_mem e (ih h)

/-- A pair is in a list exactly if its value is found at its key. -/
theorem lookup_eq_some_iff (h : (es.map Prod.fst).Nodup) : lookup k es = some v ↔ (k, v) ∈ es := by
  induction es with
  | nil => simp [lookup]
  | cons e es ih =>
    rw [List.map_cons, List.nodup_cons] at h
    rw [lookup, List.mem_cons]
    by_cases he : e.1 = k
    · subst he
      have hnot : (e.1, v) ∉ es := fun hm => h.1 (List.mem_map.mpr ⟨_, hm, rfl⟩)
      rw [if_pos rfl, Option.some.injEq, or_iff_left hnot]
      exact ⟨fun hv => hv ▸ rfl, fun hv => (congrArg Prod.snd hv).symm⟩
    · rw [if_neg he, ih h.2]
      exact (or_iff_right fun hk => he (congrArg Prod.fst hk).symm).symm

/-- What is found under renamed keys with changed values. -/
theorem lookup_map {γ δ : Type} [DecidableEq γ] {f : α → γ} {g : α → β → δ}
    (hf : Function.Injective f) (k : α) (es : List (α × β)) :
    lookup (f k) (es.map fun e => (f e.1, g e.1 e.2)) = (lookup k es).map (g k) := by
  induction es with
  | nil => rfl
  | cons e es ih =>
    rw [List.map_cons, lookup, lookup, ih]
    by_cases he : e.1 = k
    · rw [if_pos (congrArg f he), if_pos he, he]
      rfl
    · rw [if_neg fun hk => he (hf hk), if_neg he]

theorem write_map {γ δ : Type} [DecidableEq γ] {f : α → γ} {g : α → β → δ}
    (hf : Function.Injective f) (k : α) (v : β) (es : List (α × β)) :
    write (f k) (g k v) (es.map fun e => (f e.1, g e.1 e.2)) =
      (write k v es).map fun e => (f e.1, g e.1 e.2) := by
  induction es with
  | nil => rfl
  | cons e es ih =>
    rw [List.map_cons, write, write, ih]
    by_cases he : e.1 = k
    · rw [if_pos (congrArg f he), if_pos he]
      rfl
    · rw [if_neg fun hk => he (hf hk), if_neg he]
      rfl

theorem filter_map {γ δ : Type} [DecidableEq γ] {f : α → γ} {g : α → β → δ}
    (hf : Function.Injective f) (k : α) (es : List (α × β)) :
    (es.map fun e => (f e.1, g e.1 e.2)).filter (·.1 ≠ f k) =
      (es.filter (·.1 ≠ k)).map fun e => (f e.1, g e.1 e.2) := by
  rw [List.filter_map]
  congr 1
  refine List.filter_congr fun e _ => ?_
  simp [hf.eq_iff]

theorem mem_entries_iff {m : OrderedMap α β} : (k, v) ∈ m.entries ↔ m.get? k = some v :=
  (lookup_eq_some_iff m.nodup).symm

/-- Pairs with different keys are found again. -/
theorem get?_ofList (h : (es.map Prod.fst).Nodup) (k : α) : (ofList es).get? k = lookup k es := by
  rw [get?, ofList, entries_insertAll, entries_empty, List.nil_append]
  rwa [entries_empty, List.nil_append]

end StylePack.OrderedMap
