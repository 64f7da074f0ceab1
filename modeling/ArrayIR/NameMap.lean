/-
  ArrayIR.NameMap — finite maps from names, held in name order.

  Merges, type environments and the locals of a running function are all maps
  from names whose iteration order can be seen: merge values are evaluated, names
  are refreshed and text is printed in it. The order is that of the names
  themselves (by code point, which is also the order of their UTF-8 bytes), so it
  is part of the type: the entries of a `NameMap` are strictly sorted.

  Proved here:
  - `get?_insert`: a look-up after an insertion sees the inserted value at its name
    and the old map everywhere else.
  - `ext_get?`: two maps with the same look-ups are the same map.
  - `insertAll_perm`, `toList_ofList_perm`: the order in which distinct names are
    bound does not matter, and the entries are what was bound.
-/

namespace ArrayIR

/-- Put `v` under `k` in a list sorted by name, in place of an older entry if there is one. -/
def insertEntry {α : Type} (k : String) (v : α) : List (String × α) → List (String × α)
  | [] => [(k, v)]
  | e :: rest =>
    if k < e.1 then (k, v) :: e :: rest
    else if k = e.1 then (k, v) :: rest
    else e :: insertEntry k v rest

/-- The value under `k` in a list of named entries. -/
def findEntry {α : Type} (k : String) : List (String × α) → Option α
  | [] => none
  | e :: rest => if k = e.1 then some e.2 else findEntry k rest

variable {k : String}

theorem fst_of_mem_insertEntry {α : Type} {v : α} {es : List (String × α)} {e : String × α}
    (h : e ∈ insertEntry k v es) : e.1 = k ∨ e ∈ es := by
  induction es with
  | nil => simp_all [insertEntry]
  | cons d rest ih =>
    simp only [insertEntry] at h
    split at h
    · rcases List.mem_cons.mp h with rfl | h
      · exact .inl rfl
      · exact .inr h
    · split at h
      · rcases List.mem_cons.mp h with rfl | h
        · exact .inl rfl
        · exact .inr (List.mem_cons_of_mem _ h)
      · rcases List.mem_cons.mp h with rfl | h
        · exact .inr List.mem_cons_self
        · exact (ih h).imp_right (List.mem_cons_of_mem _)

theorem lt_of_not_lt_of_ne {a b : String} (h : ¬ a < b) (hne : a ≠ b) : b < a :=
  Std.lt_of_le_of_ne (String.not_lt.mp h) (Ne.symm hne)

theorem pairwise_insertEntry {α : Type} (k : String) (v : α) {es : List (String × α)}
    (h : es.Pairwise (fun a b => a.1 < b.1)) : (insertEntry k v es).Pairwise (fun a b => a.1 < b.1) := by
  induction es with
  | nil => simp [insertEntry]
  | cons d rest ih =>
    obtain ⟨hd, hrest⟩ := List.pairwise_cons.mp h
    simp only [insertEntry]
    split
    · rename_i hlt
      refine List.pairwise_cons.mpr ⟨fun e he => ?_, h⟩
      rcases List.mem_cons.mp he with rfl | he
      · exact hlt
      · exact String.lt_trans hlt (hd e he)
    · split
      · rename_i heq
        exact List.pairwise_cons.mpr ⟨fun e he => heq ▸ hd e he, hrest⟩
      · rename_i hnlt hne
        refine List.pairwise_cons.mpr ⟨fun e he => ?_, ih hrest⟩
        rcases fst_of_mem_insertEntry he with heq | he
        · exact heq ▸ lt_of_not_lt_of_ne hnlt hne
        · exact hd e he

/-- A finite map from names, its entries strictly sorted by name. -/
structure NameMap (α : Type) where
  entries : List (String × α)
  sorted : entries.Pairwise (fun a b => a.1 < b.1)

namespace NameMap

variable {α β : Type}

def empty : NameMap α := ⟨[], .nil⟩

instance : EmptyCollection (NameMap α) := ⟨empty⟩

instance : Inhabited (NameMap α) := ⟨empty⟩

/-- The value under `k`. -/
def get? (m : NameMap α) (k : String) : Option α := findEntry k m.entries

def contains (m : NameMap α) (k : String) : Bool := (m.get? k).isSome

/-- Bind `k` to `v`, replacing what `k` was bound to. -/
def insert (m : NameMap α) (k : String) (v : α) : NameMap α :=
  ⟨insertEntry k v m.entries, pairwise_insertEntry k v m.sorted⟩

/-- Bind every pair in turn, so the last binding of a name stays. -/
def insertAll (m : NameMap α) (es : List (String × α)) : NameMap α :=
  es.foldl (fun m e => m.insert e.1 e.2) m

def ofList (es : List (String × α)) : NameMap α := empty.insertAll es

def toList (m : NameMap α) : List (String × α) := m.entries

def keys (m : NameMap α) : List String := m.entries.map (·.1)

def values (m : NameMap α) : List α := m.entries.map (·.2)

/-! ## Look-ups -/

@[simp] theorem get?_empty (k : String) : (empty : NameMap α).get? k = none := rfl

theorem findEntry_insertEntry (k : String) (v : α) (es : List (String × α)) (j : String) :
    findEntry j (insertEntry k v es) = if j = k then some v else findEntry j es := by
  induction es with
  | nil => simp [insertEntry, findEntry]
  | cons e rest ih =>
    simp only [insertEntry]
    split
    · simp [findEntry]
    · split
      · rename_i heq
        simp only [findEntry, heq]
        split <;> rfl
      · rename_i hne
        simp only [findEntry, ih]
        split
        · rename_i hj
          simp [hj, Ne.symm hne]
        · rfl

/-- A look-up after an insertion. -/
theorem get?_insert (m : NameMap α) (k : String) (v : α) (j : String) :
    (m.insert k v).get? j = if j = k then some v else m.get? j :=
  findEntry_insertEntry k v m.entries j

@[simp] theorem get?_insert_self (m : NameMap α) (k : String) (v : α) : (m.insert k v).get? k = some v := by
  simp [get?_insert]

theorem get?_insert_of_ne (m : NameMap α) {j : String} (v : α) (h : j ≠ k) : (m.insert k v).get? j = m.get? j := by
  simp [get?_insert, h]

variable {es : List (String × α)} {m : NameMap α} {v : α}

theorem findEntry_eq_none_of_lt (h : ∀ e ∈ es, k < e.1) : findEntry k es = none := by
  induction es with
  | nil => rfl
  | cons e rest ih =>
    have hn : k < e.1 := h e List.mem_cons_self
    have hne : k ≠ e.1 := fun he => String.lt_irrefl e.1 (he ▸ hn)
    simp [findEntry, hne, ih fun e he => h e (List.mem_cons_of_mem _ he)]

theorem findEntry_eq_none_of_lt_head {e : String × α} (hk : k < e.1)
    (he : ∀ d ∈ es, e.1 < d.1) : findEntry k (e :: es) = none :=
  findEntry_eq_none_of_lt fun d hd => by
    rcases List.mem_cons.mp hd with rfl | hd
    · exact hk
    · exact String.lt_trans hk (he d hd)

theorem entries_eq_of_findEntry {fs : List (String × α)} (he : es.Pairwise (fun a b => a.1 < b.1))
    (hf : fs.Pairwise (fun a b => a.1 < b.1)) (h : ∀ k, findEntry k es = findEntry k fs) : es = fs := by
  induction es generalizing fs with
  | nil =>
    cases fs with
    | nil => rfl
    | cons f rest => simpa [findEntry] using h f.1
  | cons e rest ih =>
    obtain ⟨hn, hrest⟩ := List.pairwise_cons.mp he
    cases fs with
    | nil => simpa [findEntry] using h e.1
    | cons f rest' =>
      obtain ⟨hn', hrest'⟩ := List.pairwise_cons.mp hf
      have hkey : e.1 = f.1 := by
        by_cases hlt : e.1 < f.1
        · have hsome := h e.1
          rw [findEntry_eq_none_of_lt_head hlt hn'] at hsome
          simp [findEntry] at hsome
        · by_cases heq : e.1 = f.1
          · exact heq
          · have hsome := h f.1
            rw [findEntry_eq_none_of_lt_head (lt_of_not_lt_of_ne hlt heq) hn] at hsome
            simp [findEntry] at hsome
      have hval : e.2 = f.2 := by simpa [findEntry, hkey] using h e.1
      have htail : rest = rest' := by
        refine ih hrest hrest' fun k => ?_
        by_cases hk : k = e.1
        · rw [hk, findEntry_eq_none_of_lt hn, hkey, findEntry_eq_none_of_lt hn']
        · simpa [findEntry, hk, hkey ▸ hk] using h k
      rw [htail, show e = f from Prod.ext hkey hval]

/-- Two maps with the same look-ups are the same map. -/
theorem ext_get? {m' : NameMap α} (h : ∀ k, m.get? k = m'.get? k) : m = m' := by
  obtain ⟨es, hs⟩ := m
  obtain ⟨fs, hf⟩ := m'
  obtain rfl : es = fs := entries_eq_of_findEntry hs hf h
  rfl

/-! ## Several names -/

theorem keys_nodup (m : NameMap α) : m.keys.Nodup := by
  refine List.pairwise_map.mpr (m.sorted.imp ?_)
  intro a b h e
  exact String.lt_irrefl b.1 (e ▸ h)

theorem insertAll_cons (m : NameMap α) (e : String × α) (es : List (String × α)) :
    m.insertAll (e :: es) = (m.insert e.1 e.2).insertAll es := rfl

theorem get?_insertAll_of_not_mem (h : k ∉ es.map (·.1)) (m : NameMap α) : (m.insertAll es).get? k = m.get? k := by
  induction es generalizing m with
  | nil => rfl
  | cons e es ih =>
    rw [List.map_cons, List.mem_cons, not_or] at h
    rw [insertAll_cons, ih h.2, get?_insert_of_ne m e.2 h.1]

theorem get?_insertAll_of_mem (hnd : (es.map (·.1)).Nodup) (h : (k, v) ∈ es)
    (m : NameMap α) : (m.insertAll es).get? k = some v := by
  induction es generalizing m with
  | nil => exact absurd h List.not_mem_nil
  | cons e es ih =>
    rw [List.map_cons, List.nodup_cons] at hnd
    rw [insertAll_cons]
    rcases List.mem_cons.mp h with rfl | h
    · rw [get?_insertAll_of_not_mem hnd.1, get?_insert_self]
    · exact ih hnd.2 h _

/-- The order in which distinct names are bound does not matter. -/
theorem insertAll_perm {fs : List (String × α)} (h : es.Perm fs) (hnd : (es.map (·.1)).Nodup) (m : NameMap α) :
    m.insertAll es = m.insertAll fs := by
  have hkeys : (es.map (·.1)).Perm (fs.map (·.1)) := h.map _
  refine ext_get? fun k => ?_
  by_cases hk : k ∈ es.map (·.1)
  · obtain ⟨e, he, rfl⟩ := List.mem_map.mp hk
    rw [get?_insertAll_of_mem hnd (show (e.1, e.2) ∈ es from he),
      get?_insertAll_of_mem (hkeys.nodup hnd) (show (e.1, e.2) ∈ fs from h.mem_iff.mp he)]
  · rw [get?_insertAll_of_not_mem hk, get?_insertAll_of_not_mem fun h' => hk (hkeys.mem_iff.mpr h')]

theorem get?_of_mem (h : (k, v) ∈ m.toList) : m.get? k = some v := by
  obtain ⟨es, hs⟩ := m
  show findEntry k es = some v
  induction es with
  | nil => exact absurd h List.not_mem_nil
  | cons e rest ih =>
    obtain ⟨hd, hrest⟩ := List.pairwise_cons.mp hs
    rcases List.mem_cons.mp h with rfl | h
    · simp [findEntry]
    · have hne : k ≠ e.1 := by
        intro he
        have hlt : e.1 < k := hd (k, v) h
        exact String.lt_irrefl k (he ▸ hlt)
      simp [findEntry, hne, ih hrest h]

theorem get?_of_not_mem (h : k ∉ m.keys) : m.get? k = none := by
  obtain ⟨es, hs⟩ := m
  show findEntry k es = none
  induction es with
  | nil => rfl
  | cons e rest ih =>
    obtain ⟨hne, hrest⟩ := not_or.mp (mt List.mem_cons.mpr h)
    simp [findEntry, show k ≠ e.1 from hne, ih (List.pairwise_cons.mp hs).2 hrest]

/-- A map is its own entries, bound one after the other. -/
theorem ofList_toList (m : NameMap α) : ofList m.toList = m := by
  refine ext_get? fun k => ?_
  by_cases hk : k ∈ m.keys
  · obtain ⟨e, he, rfl⟩ := List.mem_map.mp hk
    rw [get?_of_mem he]
    exact get?_insertAll_of_mem m.keys_nodup he empty
  · rw [get?_of_not_mem hk]
    exact get?_insertAll_of_not_mem hk empty

/-- Entries that are sorted already are those of the map. -/
theorem toList_ofList_of_sorted (h : es.Pairwise (fun a b => a.1 < b.1)) : (ofList es).toList = es := by
  have := ofList_toList (⟨es, h⟩ : NameMap α)
  rw [show (⟨es, h⟩ : NameMap α).toList = es from rfl] at this
  rw [this]
  rfl

theorem insertEntry_perm (h : k ∉ es.map (·.1)) (v : α) : (insertEntry k v es).Perm ((k, v) :: es) := by
  induction es with
  | nil => exact .refl _
  | cons e rest ih =>
    rw [List.map_cons, List.mem_cons, not_or] at h
    simp only [insertEntry]
    split
    · exact .refl _
    · rw [if_neg h.1]
      exact ((ih h.2).cons e).trans (.swap _ _ _)

/-- The entries of a map, up to order, are the distinct names it was given. -/
theorem toList_insertAll_perm (hnd : (es.map (·.1)).Nodup)
    (hm : ∀ k ∈ es.map (·.1), k ∉ m.keys) : (m.insertAll es).toList.Perm (es ++ m.toList) := by
  induction es generalizing m with
  | nil => exact .refl _
  | cons e es ih =>
    rw [List.map_cons, List.nodup_cons] at hnd
    have hins : (m.insert e.1 e.2).toList.Perm (e :: m.toList) :=
      insertEntry_perm (hm e.1 (by simp)) e.2
    rw [insertAll_cons]
    refine (ih hnd.2 fun k hk hmem => ?_).trans ?_
    · have : k ∈ (e :: m.toList).map (·.1) := (hins.map _).mem_iff.mp hmem
      rcases List.mem_cons.mp this with rfl | h
      · exact hnd.1 hk
      · exact hm k (by simp [hk]) h
    · exact ((List.Perm.refl es).append hins).trans List.perm_middle

theorem toList_ofList_perm (hnd : (es.map (·.1)).Nodup) : (ofList es).toList.Perm es := by
  have := toList_insertAll_perm (m := empty) hnd fun k _ h => absurd h List.not_mem_nil
  rwa [show (empty : NameMap α).toList = [] from rfl, List.append_nil] at this

/-! ## Entries -/

theorem mem_toList : (k, v) ∈ m.toList ↔ m.get? k = some v := by
  refine ⟨get?_of_mem, fun h => ?_⟩
  by_cases hk : k ∈ m.keys
  · obtain ⟨⟨k', u⟩, he, rfl⟩ := List.mem_map.mp hk
    rw [get?_of_mem he] at h
    cases h
    exact he
  · rw [get?_of_not_mem hk] at h
    cases h

theorem mem_keys : k ∈ m.keys ↔ ∃ v, m.get? k = some v := by
  constructor
  · intro hk
    obtain ⟨⟨k', v⟩, he, rfl⟩ := List.mem_map.mp hk
    exact ⟨v, get?_of_mem he⟩
  · rintro ⟨v, hv⟩
    exact List.mem_map.mpr ⟨(k, v), mem_toList.mpr hv, rfl⟩

theorem mem_values : v ∈ m.values ↔ ∃ k, m.get? k = some v := by
  constructor
  · intro hv
    obtain ⟨⟨k, u⟩, he, rfl⟩ := List.mem_map.mp hv
    exact ⟨k, get?_of_mem he⟩
  · rintro ⟨k, hk⟩
    exact List.mem_map.mpr ⟨(k, v), mem_toList.mpr hk, rfl⟩

theorem mem_keys_insert {j : String} : j ∈ (m.insert k v).keys ↔ j = k ∨ j ∈ m.keys := by
  simp only [mem_keys, get?_insert]
  by_cases h : j = k <;> simp [h]

theorem mem_values_insert {u : α} (h : u ∈ (m.insert k v).values) : u = v ∨ u ∈ m.values := by
  obtain ⟨j, hj⟩ := mem_values.mp h
  rw [get?_insert] at hj
  split at hj
  · cases hj
    exact .inl rfl
  · exact .inr (mem_values.mpr ⟨j, hj⟩)

theorem mem_keys_insertAll : k ∈ (m.insertAll es).keys ↔ k ∈ es.map (·.1) ∨ k ∈ m.keys := by
  induction es generalizing m with
  | nil => simp [insertAll]
  | cons e es ih =>
    rw [insertAll_cons, ih, mem_keys_insert, List.map_cons, List.mem_cons, or_left_comm, or_assoc]

theorem mem_values_insertAll (h : v ∈ (m.insertAll es).values) : v ∈ es.map (·.2) ∨ v ∈ m.values := by
  induction es generalizing m with
  | nil => exact .inr h
  | cons e es ih =>
    rw [insertAll_cons] at h
    rcases ih h with h | h
    · exact .inl (List.mem_cons_of_mem _ h)
    · exact (mem_values_insert h).imp_left fun h => List.mem_cons.mpr (.inl h)

theorem mem_keys_ofList : k ∈ (ofList es).keys ↔ k ∈ es.map (·.1) := by
  rw [ofList, mem_keys_insertAll]
  simp [keys, empty]

theorem mem_values_ofList (h : v ∈ (ofList es).values) : v ∈ es.map (·.2) :=
  (mem_values_insertAll h).resolve_right List.not_mem_nil

end NameMap

end ArrayIR
