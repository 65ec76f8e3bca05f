/-! Finite maps that remember the order in which their keys came in. Writing to a key that is
there keeps its place and replaces its value. -/
namespace StylePack

structure OrderedMap (α β : Type) where
  entries : List (α × β)
  nodup : (entries.map Prod.fst).Nodup

namespace OrderedMap
variable {α β : Type}

@[ext] theorem ext {m n : OrderedMap α β} (h : m.entries = n.entries) : m = n := by
  cases m; cases n; simp_all

instance [DecidableEq α] [DecidableEq β] : DecidableEq (OrderedMap α β) := fun m n =>
  decidable_of_iff (m.entries = n.entries) ⟨ext, fun h => h ▸ rfl⟩

instance [Repr α] [Repr β] : Repr (OrderedMap α β) := ⟨fun m n => reprPrec m.entries n⟩

def empty : OrderedMap α β := ⟨[], by simp⟩

instance : Inhabited (OrderedMap α β) := ⟨empty⟩

@[simp] theorem entries_empty : (empty : OrderedMap α β).entries = [] := rfl

def keys (m : OrderedMap α β) : List α := m.entries.map Prod.fst

theorem nodup_keys (m : OrderedMap α β) : m.keys.Nodup := m.nodup

def values (m : OrderedMap α β) : List β := m.entries.map Prod.snd

def size (m : OrderedMap α β) : Nat := m.entries.length

def isEmpty (m : OrderedMap α β) : Bool := m.entries.isEmpty

variable [DecidableEq α]

def lookup (k : α) : List (α × β) → Option β
  | [] => none
  | (a, b) :: r => if a = k then some b else lookup k r

/-- Replaces the value of a key, or adds the key at the end. -/
def write (k : α) (v : β) : List (α × β) → List (α × β)
  | [] => [(k, v)]
  | (a, b) :: r => if a = k then (k, v) :: r else (a, b) :: write k v r

def get? (m : OrderedMap α β) (k : α) : Option β := lookup k m.entries

def contains (m : OrderedMap α β) (k : α) : Bool := (m.get? k).isSome

theorem keys_write (k : α) (v : β) (es : List (α × β)) :
    (write k v es).map Prod.fst =
      if k ∈ es.map Prod.fst then es.map Prod.fst else es.map Prod.fst ++ [k] := by
  induction es with
  | nil => simp [write]
  | cons e r ih =>
    obtain ⟨a, b⟩ := e
    by_cases h : a = k
    · simp [write, h]
    · simp only [write, h, if_false, List.map_cons, ih, List.mem_cons, Ne.symm h, false_or]
      split <;> simp

theorem nodup_write (k : α) (v : β) {es : List (α × β)} (h : (es.map Prod.fst).Nodup) :
    ((write k v es).map Prod.fst).Nodup := by
  rw [keys_write]
  split
  · exact h
  · rename_i hk
    refine List.nodup_append.2 ⟨h, by simp, ?_⟩
    intro a ha b hb hab
    rw [List.mem_singleton] at hb
    exact hk (hb ▸ hab ▸ ha)

def insert (m : OrderedMap α β) (k : α) (v : β) : OrderedMap α β :=
  ⟨write k v m.entries, nodup_write k v m.nodup⟩

/-- Writes pairs one after another. -/
def insertAll (m : OrderedMap α β) (pairs : List (α × β)) : OrderedMap α β :=
  pairs.foldl (fun m p => m.insert p.1 p.2) m

def ofList (pairs : List (α × β)) : OrderedMap α β := empty.insertAll pairs

theorem lookup_write_self (k : α) (v : β) (es : List (α × β)) :
    lookup k (write k v es) = some v := by
  fun_induction write k v es <;> simp_all [lookup]

theorem lookup_write_ne {k j : α} (v : β) (h : j ≠ k) (es : List (α × β)) :
    lookup j (write k v es) = lookup j es := by
  fun_induction write k v es <;> simp_all [lookup, Ne.symm h]

@[simp] theorem get?_empty (k : α) : (empty : OrderedMap α β).get? k = none := rfl

@[simp] theorem get?_insert_self (m : OrderedMap α β) (k : α) (v : β) :
    (m.insert k v).get? k = some v := lookup_write_self k v m.entries

theorem get?_insert_ne (m : OrderedMap α β) {k j : α} (v : β) (h : j ≠ k) :
    (m.insert k v).get? j = m.get? j := lookup_write_ne v h m.entries

theorem get?_insert (m : OrderedMap α β) (k j : α) (v : β) :
    (m.insert k v).get? j = if j = k then some v else m.get? j := by
  split
  · simp_all
  · exact get?_insert_ne m v ‹_›

/-- A key that is there keeps its place, a new one comes last. -/
theorem keys_insert (m : OrderedMap α β) (k : α) (v : β) :
    (m.insert k v).keys = if k ∈ m.keys then m.keys else m.keys ++ [k] :=
  keys_write k v m.entries

theorem lookup_isSome_iff (k : α) (es : List (α × β)) :
    (lookup k es).isSome ↔ k ∈ es.map Prod.fst := by
  induction es with
  | nil => simp [lookup]
  | cons e r ih => by_cases h : e.1 = k <;> simp_all [lookup, Ne.symm]

theorem contains_iff (m : OrderedMap α β) (k : α) : m.contains k = true ↔ k ∈ m.keys :=
  lookup_isSome_iff k m.entries

theorem write_of_not_mem {k : α} {es : List (α × β)} (v : β) (h : k ∉ es.map Prod.fst) :
    write k v es = es ++ [(k, v)] := by
  fun_induction write k v es <;> simp_all

/-- Pairs with different keys are stored as they come. -/
theorem entries_insertAll (m : OrderedMap α β) {pairs : List (α × β)}
    (h : ((m.entries ++ pairs).map Prod.fst).Nodup) :
    (m.insertAll pairs).entries = m.entries ++ pairs := by
  induction pairs generalizing m with
  | nil => simp [insertAll]
  | cons p ps ih =>
    have hp : p.1 ∉ m.entries.map Prod.fst := by
      intro hm
      rw [List.map_append, List.nodup_append] at h
      exact h.2.2 p.1 hm p.1 (by simp) rfl
    have hi : (m.insert p.1 p.2).entries = m.entries ++ [p] := write_of_not_mem p.2 hp
    have := ih (m.insert p.1 p.2) (by simpa [hi] using h)
    simpa [insertAll, hi] using this

theorem ofList_entries (m : OrderedMap α β) : ofList m.entries = m :=
  ext (by simpa [ofList] using entries_insertAll empty (by simpa using m.nodup))

example : (ofList [("z", 1), ("a", 2), ("z", 3)]).entries = [("z", 3), ("a", 2)] := by decide

end OrderedMap
end StylePack
