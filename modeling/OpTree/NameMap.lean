/-!
# Maps from names

Finite maps from names, as lists of entries. A scope frame, a lookup and a call table are such
maps. The order of the entries carries no meaning; `names` lists the names in ascending order.
-/

namespace OpTree

/-- A finite map from names. -/
structure NameMap (β : Type) where
  entries : List (String × β)

namespace NameMap

variable {β : Type}

/-- The map without entries. -/
def empty : NameMap β := ⟨[]⟩

instance : Inhabited (NameMap β) := ⟨empty⟩

/-- The value of a name. -/
def find? (map : NameMap β) (name : String) : Option β :=
  map.entries.lookup name

/-- Whether a name has a value. -/
def contains (map : NameMap β) (name : String) : Bool :=
  (map.find? name).isSome

/-- Removes a name. -/
def erase (map : NameMap β) (name : String) : NameMap β :=
  ⟨map.entries.filter fun entry => entry.1 != name⟩

/-- Gives a name a value, in place of the one it had. -/
def insert (map : NameMap β) (name : String) (value : β) : NameMap β :=
  ⟨(name, value) :: (map.erase name).entries⟩

/-- Changes the first entry of a name. -/
private def modifyFirst (name : String) (change : β → β) : List (String × β) → List (String × β)
  | [] => []
  | entry :: rest =>
    if entry.1 = name then (entry.1, change entry.2) :: rest
    else entry :: modifyFirst name change rest

/-- Changes the value of a name that has one. -/
def modify (map : NameMap β) (name : String) (change : β → β) : NameMap β :=
  ⟨modifyFirst name change map.entries⟩

/-- Adds every entry of `other`, in place of those with the same name. -/
def union (map other : NameMap β) : NameMap β :=
  other.entries.foldr (fun entry map => map.insert entry.1 entry.2) map

/-- The names that have a value, in ascending order. -/
def names (map : NameMap β) : List String :=
  (map.entries.map Prod.fst).mergeSort fun a b => decide (a ≤ b)

/-- The number of names that have a value. -/
def size (map : NameMap β) : Nat :=
  map.entries.length

/-! ### Reading after writing -/

@[simp]
theorem find?_empty (name : String) : (empty : NameMap β).find? name = none := rfl

/-- What is erased is no longer found. -/
theorem find?_erase (map : NameMap β) (name other : String) :
    (map.erase name).find? other = if other = name then none else map.find? other := by
  obtain ⟨entries⟩ := map
  simp only [find?, erase]
  induction entries with
  | nil => simp
  | cons entry rest ih => grind

/-- The value that was written is found. -/
theorem find?_insert (map : NameMap β) (name other : String) (value : β) :
    (map.insert name value).find? other = if other = name then some value else map.find? other := by
  have h := find?_erase map name other
  simp only [find?, insert] at h ⊢
  by_cases hn : other = name <;> simp [List.lookup_cons, hn] at h ⊢
  simpa [beq_eq_false_iff_ne.2 hn] using h

/-- The second table comes first. -/
theorem find?_union (map other : NameMap β) (name : String) :
    (map.union other).find? name = (other.find? name).or (map.find? name) := by
  obtain ⟨entries⟩ := other
  rw [union]
  induction entries with
  | nil => rfl
  | cons entry rest ih =>
    obtain ⟨key, value⟩ := entry
    rw [List.foldr_cons, find?_insert, ih]
    simp only [find?, List.lookup_cons]
    by_cases hn : name = key
    · simp [hn]
    · simp [hn, beq_eq_false_iff_ne.2 hn]

/-- A name that has a value has the changed one. -/
theorem find?_modify (map : NameMap β) (name other : String) (change : β → β) :
    (map.modify name change).find? other =
      if other = name then (map.find? name).map change else map.find? other := by
  obtain ⟨entries⟩ := map
  simp only [find?, modify]
  induction entries with
  | nil => simp [modifyFirst]
  | cons entry rest ih => grind [modifyFirst]

/-- A change touches one entry, the first of the name. -/
theorem exists_entries_modify {map : NameMap β} {name : String} {value : β}
    (hv : map.find? name = some value) (change : β → β) :
    ∃ before after, map.entries = before ++ (name, value) :: after ∧
      (map.modify name change).entries = before ++ (name, change value) :: after := by
  obtain ⟨entries⟩ := map
  simp only [find?, modify] at hv ⊢
  induction entries with
  | nil => simp at hv
  | cons entry rest ih =>
    obtain ⟨key, v⟩ := entry
    by_cases hk : key = name
    · subst hk
      have hvv : v = value := by simpa using hv
      exact ⟨[], rest, by rw [hvv, List.nil_append], by simp [modifyFirst, hvv]⟩
    · have hrest : rest.lookup name = some value := by
        simpa [List.lookup_cons, beq_eq_false_iff_ne.2 (Ne.symm hk)] using hv
      obtain ⟨before, after, hb, ha⟩ := ih hrest
      exact ⟨(key, v) :: before, after, by rw [hb, List.cons_append], by
        rw [modifyFirst, if_neg hk, ha, List.cons_append]⟩

/-- A change that is taken back leaves the map as it was. -/
theorem modify_modify_of_find? {map : NameMap β} {name : String} {value : β}
    {change back : β → β} (hv : map.find? name = some value) (hb : back (change value) = value) :
    (map.modify name change).modify name back = map := by
  obtain ⟨entries⟩ := map
  simp only [find?, modify, mk.injEq] at hv ⊢
  induction entries with
  | nil => simp at hv
  | cons entry rest ih => grind [modifyFirst]

/-! ### The names of a map -/

/-- No name has two entries. -/
def IsUnambiguous (map : NameMap β) : Prop :=
  (map.entries.map Prod.fst).Nodup

theorem isUnambiguous_empty : (empty : NameMap β).IsUnambiguous :=
  List.nodup_nil

/-- Writing a name replaces its value. -/
theorem IsUnambiguous.insert {map : NameMap β} (h : map.IsUnambiguous) (name : String) (value : β) :
    (map.insert name value).IsUnambiguous := by
  refine List.nodup_cons.2 ⟨fun hmem => ?_, List.Nodup.sublist (List.filter_sublist.map _) h⟩
  obtain ⟨entry, hentry, hname⟩ := List.mem_map.1 hmem
  simpa [hname] using (List.mem_filter.1 hentry).2

/-- A name that both tables have is kept once. -/
theorem IsUnambiguous.union {map : NameMap β} (h : map.IsUnambiguous) (other : NameMap β) :
    (map.union other).IsUnambiguous := by
  obtain ⟨entries⟩ := other
  rw [NameMap.union]
  induction entries with
  | nil => exact h
  | cons entry rest ih => exact ih.insert _ _

/-- The names are those that have a value. -/
theorem mem_names {map : NameMap β} {name : String} : name ∈ map.names ↔ map.contains name := by
  rw [names, List.mem_mergeSort, List.mem_map, contains, find?, List.lookup_isSome_iff]
  simp only [beq_iff_eq, eq_comm (a := name)]

/-- There are as many names as the size says. -/
theorem length_names (map : NameMap β) : map.names.length = map.size := by
  rw [names, List.length_mergeSort, List.length_map, size]

/-- The names ascend, and none is repeated. -/
theorem IsUnambiguous.pairwise_names {map : NameMap β} (h : map.IsUnambiguous) :
    map.names.Pairwise (· < ·) := by
  have hle : map.names.Pairwise (· ≤ ·) := by
    have hsorted := @List.pairwise_mergeSort _ (fun a b : String => decide (a ≤ b))
      (fun a b c hab hbc => decide_eq_true (String.le_trans (of_decide_eq_true hab)
        (of_decide_eq_true hbc)))
      (fun a b => by simpa using String.le_total a b) (map.entries.map Prod.fst)
    exact hsorted.imp of_decide_eq_true
  have hne : map.names.Pairwise (· ≠ ·) := (List.mergeSort_perm _ _).nodup_iff.2 h
  exact (hle.and hne).imp fun h => Std.lt_of_le_of_ne h.1 h.2

end NameMap

end OpTree
