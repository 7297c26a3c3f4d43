import Mathlib.Data.List.Basic

/-! # Ordered part maps

The per-object level of the bitmap map, `std::map<std::size_t, BitVec>`: an association
list in ascending key order. `metadata_store.h`, which declares the map, is not in the source,
and the spec says only "nested mapping": the ordered `std::map`, and with it the ascending order
in which `flushBitmaps` visits the parts, is taken as given. Sortedness is a field of the
structure, so two part maps with the same lookups are equal (`PartMap.ext`); that is what lets
the order-independence of `markDirtyBlock` be stated as an equation between maps.
-/

namespace CacheEngine

theorem uint64_lt_iff (a b : UInt64) : a < b ↔ a.toNat < b.toNat := Iff.rfl

/-- The value stored under a key of an association list. -/
def lookupPart (k : UInt64) : List (UInt64 × List Bool) → Option (List Bool)
  | [] => none
  | (k', v) :: rest => if k = k' then some v else lookupPart k rest

/-- Ordered insertion; an existing key has its value replaced. -/
def insertPart (k : UInt64) (v : List Bool) :
    List (UInt64 × List Bool) → List (UInt64 × List Bool)
  | [] => [(k, v)]
  | (k', v') :: rest =>
    if k < k' then (k, v) :: (k', v') :: rest
    else if k = k' then (k, v) :: rest
    else (k', v') :: insertPart k v rest

theorem lookupPart_insertPart (k q : UInt64) (v : List Bool) (es : List (UInt64 × List Bool)) :
    lookupPart q (insertPart k v es) = if q = k then some v else lookupPart q es := by
  induction es with
  | nil => rfl
  | cons e rest ih =>
    obtain ⟨k', v'⟩ := e
    by_cases hlt : k < k'
    · rw [insertPart, if_pos hlt]
      rfl
    · by_cases heq : k = k'
      · subst heq
        rw [insertPart, if_neg hlt, if_pos rfl]
        by_cases hq : q = k <;> simp [lookupPart, hq]
      · rw [insertPart, if_neg hlt, if_neg heq]
        by_cases hq : q = k
        · subst hq
          simp [lookupPart, ih, heq]
        · simp [lookupPart, ih, hq]

theorem mem_insertPart {k : UInt64} {v : List Bool} {es : List (UInt64 × List Bool)}
    {e : UInt64 × List Bool} (he : e ∈ insertPart k v es) : e.1 = k ∨ e ∈ es := by
  induction es with
  | nil => simp_all [insertPart]
  | cons e' rest ih =>
    unfold insertPart at he
    split_ifs at he
    · rcases List.mem_cons.mp he with rfl | he
      · exact .inl rfl
      · exact .inr he
    · rcases List.mem_cons.mp he with rfl | he
      · exact .inl rfl
      · exact .inr (List.mem_cons_of_mem _ he)
    · rcases List.mem_cons.mp he with rfl | he
      · exact .inr (List.mem_cons_self _ _)
      · exact (ih he).imp_right (List.mem_cons_of_mem _)

theorem sorted_insertPart (k : UInt64) (v : List Bool) {es : List (UInt64 × List Bool)}
    (hs : es.Pairwise (fun a b => a.1 < b.1)) :
    (insertPart k v es).Pairwise (fun a b => a.1 < b.1) := by
  induction es with
  | nil => simp [insertPart]
  | cons e rest ih =>
    obtain ⟨k', v'⟩ := e
    rw [List.pairwise_cons] at hs
    unfold insertPart
    by_cases hlt : k < k'
    · rw [if_pos hlt, List.pairwise_cons]
      refine ⟨?_, List.pairwise_cons.mpr hs⟩
      intro e he
      rcases List.mem_cons.mp he with rfl | he
      · exact hlt
      · exact UInt64.lt_trans hlt (hs.1 e he)
    · by_cases heq : k = k'
      · subst heq
        simpa [List.pairwise_cons] using hs
      · rw [if_neg hlt, if_neg heq, List.pairwise_cons]
        refine ⟨fun e he => ?_, ih hs.2⟩
        rcases mem_insertPart he with h | h
        · simp only [h]
          rw [uint64_lt_iff] at hlt ⊢
          have hne : k.toNat ≠ k'.toNat := fun h => heq (UInt64.toNat.inj h)
          omega
        · exact hs.1 e h

private theorem lookupPart_of_lt {k : UInt64} {es : List (UInt64 × List Bool)}
    (h : ∀ e ∈ es, k < e.1) : lookupPart k es = none := by
  induction es with
  | nil => rfl
  | cons e rest ih =>
    have hne : k ≠ e.1 := UInt64.ne_of_lt (h e (List.mem_cons_self _ _))
    simp [lookupPart, hne, ih (fun e' he' => h e' (List.mem_cons_of_mem _ he'))]

theorem mem_of_lookupPart {k : UInt64} {v : List Bool} {es : List (UInt64 × List Bool)}
    (h : lookupPart k es = some v) : (k, v) ∈ es := by
  induction es with
  | nil => simp [lookupPart] at h
  | cons e rest ih =>
    obtain ⟨k', v'⟩ := e
    unfold lookupPart at h
    split_ifs at h with hk
    · cases h
      simp [hk]
    · exact List.mem_cons_of_mem _ (ih h)

theorem lookupPart_of_mem {k : UInt64} {v : List Bool} {es : List (UInt64 × List Bool)}
    (hs : es.Pairwise (fun a b => a.1 < b.1)) (h : (k, v) ∈ es) : lookupPart k es = some v := by
  induction es with
  | nil => cases h
  | cons e rest ih =>
    obtain ⟨k', v'⟩ := e
    rw [List.pairwise_cons] at hs
    rcases List.mem_cons.mp h with he | he
    · cases he
      simp [lookupPart]
    · have hne : k ≠ k' := (UInt64.ne_of_lt (hs.1 _ he)).symm
      simp [lookupPart, hne, ih hs.2 he]

theorem eq_of_lookupPart_eq {es es' : List (UInt64 × List Bool)}
    (hs : es.Pairwise (fun a b => a.1 < b.1)) (hs' : es'.Pairwise (fun a b => a.1 < b.1))
    (h : ∀ q, lookupPart q es = lookupPart q es') : es = es' := by
  induction es generalizing es' with
  | nil =>
    cases es' with
    | nil => rfl
    | cons e rest => simpa [lookupPart] using (h e.1).symm
  | cons e rest ih =>
    obtain ⟨k, v⟩ := e
    rw [List.pairwise_cons] at hs
    cases es' with
    | nil => simpa [lookupPart] using h k
    | cons e' rest' =>
      obtain ⟨k', v'⟩ := e'
      rw [List.pairwise_cons] at hs'
      have hkk : k = k' := by
        by_contra hne
        have h1 : (k', v') ∈ rest := mem_of_lookupPart (by simpa [lookupPart, Ne.symm hne] using h k')
        have h2 : (k, v) ∈ rest' := mem_of_lookupPart (by simpa [lookupPart, hne] using (h k).symm)
        exact UInt64.lt_asymm (hs.1 _ h1) (hs'.1 _ h2)
      subst hkk
      have hvv : v = v' := by simpa [lookupPart] using h k
      subst hvv
      congr 1
      apply ih hs.2 hs'.2
      intro q
      by_cases hq : q = k
      · subst hq
        rw [lookupPart_of_lt hs.1, lookupPart_of_lt hs'.1]
      · simpa [lookupPart, hq] using h q

/-- Modelled from the spec: `metadata_store.h`, which declares the bitmap map, is not in the
source; its per-object level is taken to be `std::map<std::size_t, BitVec>`, kept in
ascending key order. -/
structure PartMap where
  entries : List (UInt64 × List Bool)
  sorted : entries.Pairwise (fun a b => a.1 < b.1)

namespace PartMap

def empty : PartMap := ⟨[], List.Pairwise.nil⟩

/-- The lookup `find(k)`, as the value found. -/
def find? (m : PartMap) (k : UInt64) : Option (List Bool) :=
  lookupPart k m.entries

/-- The assignment `m[k] = v`. -/
def insert (m : PartMap) (k : UInt64) (v : List Bool) : PartMap :=
  ⟨insertPart k v m.entries, sorted_insertPart k v m.sorted⟩

/-- The vector `m[k]` refers to: the stored one, or a default-constructed empty one. -/
def get (m : PartMap) (k : UInt64) : List Bool :=
  (m.find? k).getD []

@[simp] theorem find?_empty (k : UInt64) : empty.find? k = none := rfl

@[simp] theorem find?_insert (m : PartMap) (k q : UInt64) (v : List Bool) :
    (m.insert k v).find? q = if q = k then some v else m.find? q :=
  lookupPart_insertPart k q v m.entries

theorem mem_entries_of_find? {m : PartMap} {k : UInt64} {v : List Bool} (h : m.find? k = some v) :
    (k, v) ∈ m.entries :=
  mem_of_lookupPart h

theorem eq_of_mem_entries {m : PartMap} {k : UInt64} {v v' : List Bool} (h : (k, v) ∈ m.entries)
    (h' : (k, v') ∈ m.entries) : v = v' :=
  Option.some.inj ((lookupPart_of_mem m.sorted h).symm.trans (lookupPart_of_mem m.sorted h'))

theorem ext {m m' : PartMap} (h : ∀ k, m.find? k = m'.find? k) : m = m' := by
  obtain ⟨es, hs⟩ := m
  obtain ⟨es', hs'⟩ := m'
  simp only [mk.injEq]
  exact eq_of_lookupPart_eq hs hs' h

end PartMap

end CacheEngine
