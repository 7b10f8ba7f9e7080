import PagedHeap.Ranked

/-!
# Maps in key order

A map is the list of its entries in strictly ascending key order.  The order makes the
representation canonical: two maps with the same lookups are equal (`SortedMap.ext_get?`).
-/

namespace PagedHeap

variable {κ ν μ : Type} [Ranked κ]

namespace Entries

def Ascending (l : List (κ × ν)) : Prop :=
  l.Pairwise fun a b => rank a.1 < rank b.1

def lookup (k : κ) : List (κ × ν) → Option ν
  | [] => none
  | (a, v) :: rest => if rank a = rank k then some v else lookup k rest

/-- Adds an entry at its place, replacing the one under the same key. -/
def insert (k : κ) (v : ν) : List (κ × ν) → List (κ × ν)
  | [] => [(k, v)]
  | (a, w) :: rest =>
    if rank k < rank a then (k, v) :: (a, w) :: rest
    else if rank k = rank a then (k, v) :: rest
    else (a, w) :: insert k v rest

def erase (k : κ) (l : List (κ × ν)) : List (κ × ν) :=
  l.filter fun e => rank e.1 ≠ rank k

/-- Rewrites every value and drops the entries whose new value is `none`. -/
def filterMap (f : κ → ν → Option μ) (l : List (κ × ν)) : List (κ × μ) :=
  l.filterMap fun e => (f e.1 e.2).map (Prod.mk e.1)

theorem mem_insert {k : κ} {v : ν} {e : κ × ν} {l : List (κ × ν)} :
    e ∈ insert k v l → e = (k, v) ∨ e ∈ l := by
  induction l with
  | nil => simp [insert]
  | cons head rest ih =>
    obtain ⟨a, w⟩ := head
    rw [insert]
    split
    · simp
    · split <;> grind

theorem Ascending.insert {l : List (κ × ν)} (h : Ascending l) (k : κ) (v : ν) :
    Ascending (insert k v l) := by
  induction l with
  | nil => simp [Entries.insert, Ascending]
  | cons head rest ih =>
    obtain ⟨a, w⟩ := head
    have hrest : Ascending rest := List.Pairwise.of_cons h
    have hhead : ∀ e ∈ rest, rank a < rank e.1 := fun e he => List.rel_of_pairwise_cons h he
    rw [Entries.insert]
    split
    · refine List.Pairwise.cons ?_ h
      intro e he
      change rank k < rank e.1
      rcases List.mem_cons.mp he with rfl | he
      · assumption
      · have := hhead e he
        omega
    · split
      · refine List.Pairwise.cons ?_ hrest
        intro e he
        change rank k < rank e.1
        have := hhead e he
        omega
      · refine List.Pairwise.cons ?_ (ih hrest)
        intro e he
        rcases mem_insert he with rfl | he
        · change rank a < rank k
          omega
        · exact hhead e he

theorem Ascending.erase {l : List (κ × ν)} (h : Ascending l) (k : κ) :
    Ascending (erase k l) :=
  List.Pairwise.filter _ h

omit [Ranked κ] in
theorem mem_filterMap {f : κ → ν → Option μ} {e : κ × μ} {l : List (κ × ν)} :
    e ∈ filterMap f l ↔ ∃ v, (e.1, v) ∈ l ∧ f e.1 v = some e.2 := by
  simp only [filterMap, List.mem_filterMap, Option.map_eq_some_iff]
  constructor
  · rintro ⟨⟨a, v⟩, hmem, w, hw, rfl⟩
    exact ⟨v, hmem, hw⟩
  · rintro ⟨v, hmem, hv⟩
    exact ⟨(e.1, v), hmem, e.2, hv, rfl⟩

theorem Ascending.filterMap {l : List (κ × ν)} (h : Ascending l) (f : κ → ν → Option μ) :
    Ascending (filterMap f l) := by
  induction l with
  | nil => exact List.Pairwise.nil
  | cons head rest ih =>
    have hrest := ih (List.Pairwise.of_cons h)
    have hhead : ∀ e ∈ rest, rank head.1 < rank e.1 := fun e he => List.rel_of_pairwise_cons h he
    simp only [Entries.filterMap, List.filterMap_cons]
    cases hf : f head.1 head.2 with
    | none => simpa [Entries.filterMap] using hrest
    | some w =>
      refine List.Pairwise.cons ?_ hrest
      intro e he
      obtain ⟨v, hmem, -⟩ := mem_filterMap.mp he
      exact hhead _ hmem

theorem lookup_eq_none {k : κ} {l : List (κ × ν)} (h : ∀ e ∈ l, rank e.1 ≠ rank k) :
    lookup k l = none := by
  induction l with
  | nil => rfl
  | cons head rest ih =>
    rw [lookup, if_neg (h head (by simp)), ih fun e he => h e (by simp [he])]

theorem lookup_eq_some {k : κ} {v : ν} {l : List (κ × ν)} (hl : Ascending l) :
    lookup k l = some v ↔ (k, v) ∈ l := by
  induction l with
  | nil => simp [lookup]
  | cons head rest ih =>
    obtain ⟨a, w⟩ := head
    have hhead : ∀ e ∈ rest, rank a < rank e.1 := fun e he => List.rel_of_pairwise_cons hl he
    rw [lookup]
    split
    case isTrue h =>
      have hak : a = k := rank_inj.mp h
      subst hak
      constructor
      · intro hv
        simp_all
      · intro hv
        rcases List.mem_cons.mp hv with heq | hv
        · simp_all
        · have := hhead _ hv
          simp at this
    case isFalse h =>
      rw [ih (List.Pairwise.of_cons hl)]
      constructor
      · intro hv
        simp [hv]
      · intro hv
        rcases List.mem_cons.mp hv with heq | hv
        · simp_all
        · exact hv

theorem lookup_insert [DecidableEq κ] (k j : κ) (v : ν) (l : List (κ × ν)) :
    lookup j (insert k v l) = if k = j then some v else lookup j l := by
  induction l with
  | nil => simp [insert, lookup, rank_inj]
  | cons head rest ih =>
    obtain ⟨a, w⟩ := head
    rw [insert]
    split
    · simp [lookup, rank_inj]
    · split
      case isTrue h =>
        have : k = a := rank_inj.mp h
        subst this
        by_cases hkj : k = j <;> simp [lookup, rank_inj, hkj]
      case isFalse h =>
        have hka : a ≠ k := fun hak => h (by rw [hak])
        rw [lookup, ih, lookup]
        by_cases hkj : k = j
        · subst hkj
          simp [rank_inj, hka]
        · simp [hkj]

theorem lookup_erase [DecidableEq κ] (k j : κ) (l : List (κ × ν)) :
    lookup j (erase k l) = if k = j then none else lookup j l := by
  induction l with
  | nil => simp [erase, lookup]
  | cons head rest ih =>
    obtain ⟨a, w⟩ := head
    by_cases hak : a = k
    · subst hak
      have : erase a ((a, w) :: rest) = erase a rest := by simp [erase]
      rw [this, ih, lookup]
      by_cases haj : a = j <;> simp [rank_inj, haj]
    · have : erase k ((a, w) :: rest) = (a, w) :: erase k rest := by
        simp [erase, rank_inj, hak]
      rw [this, lookup, ih, lookup]
      by_cases hkj : k = j
      · subst hkj
        simp [rank_inj, hak]
      · simp [hkj]

theorem lookup_filterMap {l : List (κ × ν)} (hl : Ascending l) (f : κ → ν → Option μ) (k : κ) :
    lookup k (filterMap f l) = (lookup k l).bind (f k) := by
  ext w
  rw [lookup_eq_some (hl.filterMap f), mem_filterMap, Option.bind_eq_some_iff]
  simp only [lookup_eq_some hl]

theorem Ascending.eq_of_lookup {l m : List (κ × ν)} (hl : Ascending l) (hm : Ascending m)
    (h : ∀ k, lookup k l = lookup k m) : l = m := by
  induction l generalizing m with
  | nil =>
    cases m with
    | nil => rfl
    | cons head rest =>
      have := h head.1
      simp [lookup] at this
  | cons head rest ih =>
    obtain ⟨a, v⟩ := head
    cases m with
    | nil =>
      have := h a
      simp [lookup] at this
    | cons head' rest' =>
      obtain ⟨b, w⟩ := head'
      have hrest : ∀ e ∈ rest, rank a < rank e.1 := fun e he => List.rel_of_pairwise_cons hl he
      have hrest' : ∀ e ∈ rest', rank b < rank e.1 := fun e he => List.rel_of_pairwise_cons hm he
      have hmem : (a, v) ∈ (b, w) :: rest' := by
        rw [← lookup_eq_some hm, ← h a]
        simp [lookup]
      have hmem' : (b, w) ∈ (a, v) :: rest := by
        rw [← lookup_eq_some hl, h b]
        simp [lookup]
      have hab : a = b := by
        rcases List.mem_cons.mp hmem with heq | hin
        · exact (Prod.mk.inj heq).1
        · rcases List.mem_cons.mp hmem' with heq' | hin'
          · exact (Prod.mk.inj heq').1.symm
          · have h₁ := hrest' _ hin
            have h₂ := hrest _ hin'
            simp only at h₁ h₂
            omega
      subst hab
      have hvw : v = w := by
        have := h a
        simpa [lookup] using this
      subst hvw
      congr 1
      refine ih (List.Pairwise.of_cons hl) (List.Pairwise.of_cons hm) fun k => ?_
      by_cases hak : a = k
      · subst hak
        rw [lookup_eq_none fun e he => by have := hrest e he; omega,
          lookup_eq_none fun e he => by have := hrest' e he; omega]
      · have := h k
        simpa [lookup, rank_inj, hak] using this

end Entries

/-- A finite map, listed in the order of its keys. -/
structure SortedMap (κ ν : Type) [Ranked κ] where
  entries : List (κ × ν)
  ascending : Entries.Ascending entries

namespace SortedMap

def empty : SortedMap κ ν := ⟨[], List.Pairwise.nil⟩

instance : EmptyCollection (SortedMap κ ν) := ⟨empty⟩

instance : Inhabited (SortedMap κ ν) := ⟨∅⟩

def get? (m : SortedMap κ ν) (k : κ) : Option ν :=
  Entries.lookup k m.entries

def contains (m : SortedMap κ ν) (k : κ) : Bool :=
  (m.get? k).isSome

def insert (m : SortedMap κ ν) (k : κ) (v : ν) : SortedMap κ ν :=
  ⟨Entries.insert k v m.entries, m.ascending.insert k v⟩

def erase (m : SortedMap κ ν) (k : κ) : SortedMap κ ν :=
  ⟨Entries.erase k m.entries, m.ascending.erase k⟩

def filterMap (m : SortedMap κ ν) (f : κ → ν → Option μ) : SortedMap κ μ :=
  ⟨Entries.filterMap f m.entries, m.ascending.filterMap f⟩

def keys (m : SortedMap κ ν) : List κ :=
  m.entries.map Prod.fst

def values (m : SortedMap κ ν) : List ν :=
  m.entries.map Prod.snd

def size (m : SortedMap κ ν) : Nat :=
  m.entries.length

def isEmpty (m : SortedMap κ ν) : Bool :=
  m.entries.isEmpty

@[ext] theorem ext_get? {m n : SortedMap κ ν} (h : ∀ k, m.get? k = n.get? k) : m = n := by
  obtain ⟨l, hl⟩ := m
  obtain ⟨l', hl'⟩ := n
  simp only [mk.injEq]
  exact hl.eq_of_lookup hl' h

theorem get?_eq_some {m : SortedMap κ ν} {k : κ} {v : ν} :
    m.get? k = some v ↔ (k, v) ∈ m.entries :=
  Entries.lookup_eq_some m.ascending

@[simp] theorem get?_empty (k : κ) : (∅ : SortedMap κ ν).get? k = none := rfl

theorem get?_insert [DecidableEq κ] (m : SortedMap κ ν) (k j : κ) (v : ν) :
    (m.insert k v).get? j = if k = j then some v else m.get? j :=
  Entries.lookup_insert k j v m.entries

@[simp] theorem get?_insert_self (m : SortedMap κ ν) (k : κ) (v : ν) :
    (m.insert k v).get? k = some v := by
  classical simp [get?_insert]

theorem get?_insert_of_ne (m : SortedMap κ ν) {k j : κ} (v : ν) (h : k ≠ j) :
    (m.insert k v).get? j = m.get? j := by
  classical simp [get?_insert, h]

theorem get?_erase [DecidableEq κ] (m : SortedMap κ ν) (k j : κ) :
    (m.erase k).get? j = if k = j then none else m.get? j :=
  Entries.lookup_erase k j m.entries

@[simp] theorem get?_erase_self (m : SortedMap κ ν) (k : κ) : (m.erase k).get? k = none := by
  classical simp [get?_erase]

theorem get?_erase_of_ne (m : SortedMap κ ν) {k j : κ} (h : k ≠ j) :
    (m.erase k).get? j = m.get? j := by
  classical simp [get?_erase, h]

theorem get?_filterMap (m : SortedMap κ ν) (f : κ → ν → Option μ) (k : κ) :
    (m.filterMap f).get? k = (m.get? k).bind (f k) :=
  Entries.lookup_filterMap m.ascending f k

theorem mem_keys {m : SortedMap κ ν} {k : κ} : k ∈ m.keys ↔ m.contains k = true := by
  simp only [keys, List.mem_map, contains, Option.isSome_iff_exists, get?_eq_some]
  constructor
  · rintro ⟨⟨a, v⟩, hmem, rfl⟩
    exact ⟨v, hmem⟩
  · rintro ⟨v, hmem⟩
    exact ⟨(k, v), hmem, rfl⟩

theorem keys_ascending (m : SortedMap κ ν) :
    m.keys.Pairwise fun a b => rank a < rank b :=
  List.pairwise_map.mpr m.ascending

theorem keys_nodup (m : SortedMap κ ν) : m.keys.Nodup :=
  m.keys_ascending.imp fun {a b} hab heq => by
    rw [heq] at hab
    exact Nat.lt_irrefl _ hab

end SortedMap

end PagedHeap
