namespace ObjectVault

/-- A finite map from names to values, kept in the order of the names. -/
structure Table (α : Type) where
  entries : List (String × α)
  sorted : entries.Pairwise fun a b => a.1 < b.1

namespace Table
variable {α β : Type}

/-- Puts an entry before the first larger name, in the place of an entry of the same name. -/
def insertEntry (name : String) (value : α) : List (String × α) → List (String × α)
  | [] => [(name, value)]
  | (other, old) :: rest =>
    if name < other then (name, value) :: (other, old) :: rest
    else if name = other then (name, value) :: rest
    else (other, old) :: insertEntry name value rest

theorem mem_insertEntry {name : String} {value : α} {e : String × α} {es : List (String × α)}
    (h : e ∈ insertEntry name value es) : e = (name, value) ∨ e ∈ es := by
  induction es with
  | nil => simpa [insertEntry] using h
  | cons d ds ih =>
    obtain ⟨other, old⟩ := d
    simp only [insertEntry] at h
    split at h
    · simpa using h
    · split at h
      · rcases List.mem_cons.mp h with h | h
        · exact .inl h
        · exact .inr (List.mem_cons_of_mem _ h)
      · rcases List.mem_cons.mp h with h | h
        · exact .inr (h ▸ List.mem_cons_self)
        · exact (ih h).imp_right (List.mem_cons_of_mem _)

theorem sorted_insertEntry (name : String) (value : α) {es : List (String × α)}
    (h : es.Pairwise fun a b => a.1 < b.1) :
    (insertEntry name value es).Pairwise fun a b => a.1 < b.1 := by
  induction es with
  | nil => simp [insertEntry]
  | cons d ds ih =>
    obtain ⟨other, old⟩ := d
    obtain ⟨first, rest⟩ := List.pairwise_cons.mp h
    simp only [insertEntry]
    split
    · next lt =>
      refine List.pairwise_cons.mpr ⟨fun e he => ?_, h⟩
      rcases List.mem_cons.mp he with rfl | he
      · exact lt
      · exact String.lt_trans lt (first e he)
    · next notLt =>
      split
      · next eq =>
        subst eq
        exact List.pairwise_cons.mpr ⟨first, rest⟩
      · next ne =>
        refine List.pairwise_cons.mpr ⟨fun e he => ?_, ih rest⟩
        rcases mem_insertEntry he with rfl | he
        · exact Std.lt_of_le_of_ne (String.not_lt.mp notLt) (Ne.symm ne)
        · exact first e he

instance : EmptyCollection (Table α) := ⟨⟨[], .nil⟩⟩

instance : Inhabited (Table α) := ⟨∅⟩

def get? (t : Table α) (name : String) : Option α :=
  t.entries.lookup name

def contains (t : Table α) (name : String) : Bool :=
  (t.get? name).isSome

def insert (t : Table α) (name : String) (value : α) : Table α :=
  ⟨insertEntry name value t.entries, sorted_insertEntry name value t.sorted⟩

def erase (t : Table α) (name : String) : Table α :=
  ⟨t.entries.filter fun e => e.1 != name, t.sorted.filter _⟩

def keys (t : Table α) : List String :=
  t.entries.map Prod.fst

/-- Of two entries with one name the later one counts. -/
def ofList (entries : List (String × α)) : Table α :=
  entries.foldl (fun t (name, value) => t.insert name value) ∅

def size (t : Table α) : Nat :=
  t.entries.length

def isEmpty (t : Table α) : Bool :=
  t.entries.isEmpty

theorem ext {s t : Table α} (h : s.entries = t.entries) : s = t := by
  cases s; cases t; cases h; rfl

theorem lookup_cons (name first : String) (value : α) (es : List (String × α)) :
    ((first, value) :: es).lookup name = if name = first then some value else es.lookup name := by
  by_cases h : name = first
  · simp [h]
  · simp [List.lookup_cons, beq_eq_false_iff_ne.mpr h, h]

theorem lookup_insertEntry (name other : String) (value : α) (es : List (String × α)) :
    (insertEntry name value es).lookup other =
      if other = name then some value else es.lookup other := by
  induction es with
  | nil => rw [insertEntry, lookup_cons]
  | cons e es ih =>
    obtain ⟨first, old⟩ := e
    simp only [insertEntry]
    split
    · rw [lookup_cons]
    · split
      · next eq =>
        subst eq
        by_cases h : other = name <;> simp only [lookup_cons, h, ↓reduceIte]
      · next ne =>
        by_cases h : other = first
        · subst h
          simp only [lookup_cons, Ne.symm ne, ↓reduceIte]
        · simp only [lookup_cons, h, ih, ↓reduceIte]

@[simp] theorem get?_empty (name : String) : (∅ : Table α).get? name = none := rfl

theorem get?_insert (t : Table α) (name other : String) (value : α) :
    (t.insert name value).get? other = if other = name then some value else t.get? other :=
  lookup_insertEntry name other value t.entries

theorem get?_erase (t : Table α) (name other : String) :
    (t.erase name).get? other = if other = name then none else t.get? other := by
  obtain ⟨es, sorted⟩ := t
  simp only [erase, get?]
  clear sorted
  induction es with
  | nil => simp
  | cons e es ih =>
    obtain ⟨first, old⟩ := e
    by_cases h : first = name
    · subst h
      rw [List.filter_cons_of_neg (by simp), ih, lookup_cons]
      split <;> rfl
    · by_cases h' : other = first
      · subst h'
        simp [h]
      · simp [lookup_cons, h, h', ih]

/-- Where each name stands once, looking it up finds each entry. -/
theorem lookup_eq_some_iff {es : List (String × α)} (distinct : es.Pairwise fun a b => a.1 ≠ b.1)
    {name : String} {value : α} : es.lookup name = some value ↔ (name, value) ∈ es := by
  induction es with
  | nil => simp
  | cons e es ih =>
    obtain ⟨first, old⟩ := e
    obtain ⟨apart, rest⟩ := List.pairwise_cons.mp distinct
    by_cases h : name = first
    · subst h
      have absent : (name, value) ∉ es := fun mem => apart _ mem rfl
      simp [absent, eq_comm]
    · simp [lookup_cons, h, ih rest]

theorem distinct (t : Table α) : t.entries.Pairwise fun a b => a.1 ≠ b.1 := by
  apply t.sorted.imp
  intro a b lt eq
  rw [eq] at lt
  exact String.lt_irrefl _ lt

theorem get?_eq_some_iff {t : Table α} {name : String} {value : α} :
    t.get? name = some value ↔ (name, value) ∈ t.entries :=
  lookup_eq_some_iff t.distinct

theorem contains_iff {t : Table α} {name : String} : t.contains name = true ↔ name ∈ t.keys := by
  simp [contains, keys, Option.isSome_iff_exists, get?_eq_some_iff]

theorem mem_keys_erase {t : Table α} {name other : String} :
    other ∈ (t.erase name).keys ↔ other ≠ name ∧ other ∈ t.keys := by
  rw [← contains_iff, ← contains_iff, contains, get?_erase]
  by_cases same : other = name <;> simp [same, contains]

/-- Two tables are the same if every name has the same value in both. -/
theorem ext_get? {s t : Table α} (h : ∀ name, s.get? name = t.get? name) : s = t := by
  apply ext
  have mem : ∀ e, e ∈ s.entries ↔ e ∈ t.entries := fun (name, value) => by
    rw [← get?_eq_some_iff, ← get?_eq_some_iff, h name]
  have nodup : ∀ t : Table α, t.entries.Nodup := fun t =>
    t.distinct.imp fun ne eq => ne (congrArg Prod.fst eq)
  exact ((List.perm_ext_iff_of_nodup (nodup s) (nodup t)).mpr mem).eq_of_pairwise
    (fun a b _ _ lt gt => absurd (String.lt_trans lt gt) (String.lt_irrefl _)) s.sorted t.sorted

theorem get?_ofList (es : List (String × α)) (name : String) :
    (ofList es).get? name = es.reverse.lookup name := by
  have general : ∀ t : Table α, (es.foldl (fun t (name, value) => t.insert name value) t).get? name
      = (es.reverse.lookup name).or (t.get? name) := by
    induction es with
    | nil => simp
    | cons e es ih =>
      intro t
      obtain ⟨first, value⟩ := e
      simp only [List.foldl_cons, ih, get?_insert, List.reverse_cons, List.lookup_append,
        lookup_cons, List.lookup_nil, Option.or_assoc]
      by_cases h : name = first <;> simp [h]
  simpa [ofList] using general ∅

theorem contains_ofList {es : List (String × α)} {name : String} :
    (ofList es).contains name = true ↔ name ∈ es.map Prod.fst := by
  simp only [contains, get?_ofList, List.lookup_isSome_iff, List.mem_reverse, beq_iff_eq,
    List.mem_map, eq_comm (a := name)]

/-- The order in which entries of different names are put in does not matter. -/
theorem ofList_of_perm {es : List (String × α)} {t : Table α} (perm : es.Perm t.entries) :
    ofList es = t := by
  have distinct : es.Pairwise fun a b => a.1 ≠ b.1 :=
    (perm.pairwise_iff fun ne => Ne.symm ne).mpr t.distinct
  have reversed : es.reverse.Pairwise fun a b => a.1 ≠ b.1 :=
    List.pairwise_reverse.mpr (distinct.imp Ne.symm)
  apply ext_get?
  intro name
  apply Option.ext
  intro value
  rw [get?_ofList, lookup_eq_some_iff reversed, get?_eq_some_iff, List.mem_reverse, perm.mem_iff]

@[simp] theorem ofList_entries (t : Table α) : ofList t.entries = t :=
  ofList_of_perm (.refl t.entries)

end Table
end ObjectVault
