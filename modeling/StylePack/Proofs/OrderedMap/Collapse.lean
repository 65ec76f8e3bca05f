import Mathlib.Data.List.Basic
import Mathlib.Data.List.Induction
import StylePack.ClassName
import StylePack.Proofs.OrderedMap

/-! What a list of pairs leaves in a map: its keys in the order of their first pairs, each with the
value of its last pair (`entries_ofList`). Pairs that were collapsed before they are written leave
the same map as they would one by one (`insertAll_ofList`). -/
namespace StylePack

namespace ClassName
variable {α : Type} [DecidableEq α]

theorem firstSeen_append (xs ys : List α) :
    firstSeen (xs ++ ys) = firstSeen xs ++ (firstSeen ys).filter (· ∉ xs) := by
  induction xs with
  | nil => simp [firstSeen]
  | cons x xs ih =>
    rw [List.cons_append, firstSeen, ih, List.filter_append, List.filter_filter, firstSeen,
      List.cons_append]
    congr 3
    funext y
    simp

theorem firstSeen_firstSeen (xs : List α) : firstSeen (firstSeen xs) = firstSeen xs :=
  firstSeen_of_nodup (nodup_firstSeen xs)

/-- An element that comes last is seen first there, or was seen before. -/
theorem firstSeen_concat (xs : List α) (x : α) :
    firstSeen (xs ++ [x]) = if x ∈ xs then firstSeen xs else firstSeen xs ++ [x] := by
  rw [firstSeen_append, firstSeen, firstSeen, List.filter_nil]
  split_ifs with h
  · rw [List.filter_cons_of_neg (by simpa using h), List.filter_nil, List.append_nil]
  · rw [List.filter_cons_of_pos (by simpa using h), List.filter_nil]

end ClassName

namespace OrderedMap
open ClassName
variable {α β : Type} [DecidableEq α] {m n : OrderedMap α β}

/-- The last pair with a key. -/
def lastPair (k : α) (ps : List (α × β)) : Option (α × β) := (ps.filter (·.1 = k)).getLast?

/-- The different keys of a list of pairs in the order of their first pairs, each with the value of
its last pair. -/
def collapse (ps : List (α × β)) : List (α × β) :=
  (firstSeen (ps.map Prod.fst)).filterMap fun k => lastPair k ps

theorem lastPair_concat (k : α) (ps : List (α × β)) (p : α × β) :
    lastPair k (ps ++ [p]) = if p.1 = k then some p else lastPair k ps := by
  unfold lastPair
  rw [List.filter_append]
  split_ifs with h
  · rw [List.filter_cons_of_pos (by simpa using h), List.filter_nil, List.getLast?_concat]
  · rw [List.filter_cons_of_neg (by simpa using h), List.filter_nil, List.append_nil]

theorem fst_of_lastPair {k : α} {ps : List (α × β)} {p : α × β} (h : lastPair k ps = some p) :
    p.1 = k := of_decide_eq_true (List.mem_filter.mp (List.mem_of_getLast? h)).2

theorem insertAll_concat (m : OrderedMap α β) (ps : List (α × β)) (p : α × β) :
    m.insertAll (ps ++ [p]) = (m.insertAll ps).insert p.1 p.2 := by
  rw [insertAll, List.foldl_append]
  rfl

theorem ofList_append (ps qs : List (α × β)) : ofList (ps ++ qs) = (ofList ps).insertAll qs := by
  rw [ofList, insertAll, List.foldl_append]
  rfl

theorem keys_insertAll (m : OrderedMap α β) (ps : List (α × β)) :
    (m.insertAll ps).keys = firstSeen (m.keys ++ ps.map Prod.fst) := by
  induction ps using List.reverseRecOn with
  | nil => rw [List.map_nil, List.append_nil, firstSeen_of_nodup m.nodup_keys]; rfl
  | append_singleton ps p ih =>
    rw [insertAll_concat, keys_insert, ih, List.map_append, List.map_singleton, ← List.append_assoc,
      firstSeen_concat]
    simp only [mem_firstSeen]

theorem get?_insertAll (m : OrderedMap α β) (ps : List (α × β)) (k : α) :
    (m.insertAll ps).get? k = ((lastPair k ps).map Prod.snd).or (m.get? k) := by
  induction ps using List.reverseRecOn with
  | nil => rfl
  | append_singleton ps p ih =>
    rw [insertAll_concat, get?_insert, ih, lastPair_concat]
    by_cases h : p.1 = k
    · rw [if_pos h.symm, if_pos h]
      rfl
    · rw [if_neg (Ne.symm h), if_neg h]

theorem keys_ofList (ps : List (α × β)) :
    (ofList ps : OrderedMap α β).keys = firstSeen (ps.map Prod.fst) :=
  keys_insertAll empty ps

theorem get?_ofList_eq (ps : List (α × β)) (k : α) :
    (ofList ps).get? k = (lastPair k ps).map Prod.snd := by
  rw [ofList, get?_insertAll, get?_empty, Option.or_none]

/-- A map is read off its keys and what is found at them. -/
theorem entries_eq_filterMap (m : OrderedMap α β) :
    m.entries = m.keys.filterMap fun k => (m.get? k).map fun v => (k, v) := by
  have hself : ∀ e ∈ m.entries, (m.get? e.1).map (fun v => (e.1, v)) = some (id e) := by
    intro e he
    rw [mem_entries_iff.mp he]
    rfl
  have hall := List.filterMap_eq_map_iff_forall_eq_some.mpr hself
  rw [List.map_id] at hall
  rw [keys, List.filterMap_map]
  exact hall.symm

theorem ext_get? (hkeys : m.keys = n.keys) (hget : ∀ k, m.get? k = n.get? k) : m = n := by
  ext1
  rw [entries_eq_filterMap m, entries_eq_filterMap n, hkeys]
  simp only [hget]

/-- Pairs written one by one leave each key at its first place with its last value. -/
theorem entries_ofList (ps : List (α × β)) : (ofList ps).entries = collapse ps := by
  rw [entries_eq_filterMap, keys_ofList, collapse]
  refine List.filterMap_congr fun k _ => ?_
  rw [get?_ofList_eq]
  cases h : lastPair k ps with
  | none => rfl
  | some p =>
    obtain rfl := fst_of_lastPair h
    rfl

/-- Pairs that are collapsed first leave the same map. -/
theorem insertAll_ofList (m : OrderedMap α β) (ps : List (α × β)) :
    m.insertAll (ofList ps).entries = m.insertAll ps := by
  have hlast : ∀ k, (lastPair k (ofList ps).entries).map Prod.snd =
      (lastPair k ps).map Prod.snd := by
    intro k
    rw [← get?_ofList_eq, ofList_entries, get?_ofList_eq]
  apply ext_get?
  · rw [keys_insertAll, keys_insertAll, ← keys, keys_ofList, firstSeen_append, firstSeen_firstSeen,
      ← firstSeen_append]
  · intro k
    rw [get?_insertAll, get?_insertAll, hlast]

theorem insert_insert (m : OrderedMap α β) (k : α) (v w : β) :
    (m.insert k v).insert k w = m.insert k w := by
  apply ext_get?
  · have hmem : k ∈ (m.insert k v).keys := mem_keys_insert.mpr (Or.inl rfl)
    rw [keys_insert (m.insert k v), if_pos hmem, keys_insert, keys_insert]
  · intro j
    rw [get?_insert, get?_insert, get?_insert]
    split_ifs <;> rfl

theorem ofList_ne_empty {ps : List (α × β)} (h : ps ≠ []) : (ofList ps).entries ≠ [] := by
  intro he
  have hkeys : firstSeen (ps.map Prod.fst) = [] := by rw [← keys_ofList, keys, he, List.map_nil]
  obtain ⟨p, hp⟩ := List.exists_mem_of_ne_nil ps h
  have hmem := mem_firstSeen.mpr (List.mem_map_of_mem (f := Prod.fst) hp)
  rw [hkeys] at hmem
  exact List.not_mem_nil hmem

end OrderedMap
end StylePack
