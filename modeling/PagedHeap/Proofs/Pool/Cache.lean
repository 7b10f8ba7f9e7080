import PagedHeap.Pool.Basic

/-!
# What a buffer shows

Of the frames only the cached ones matter, and of the order in which they were used only that a page
which makes room is clean.
-/

namespace PagedHeap

namespace Buffer

variable {b b' : Buffer} {id q : PageId} {f g : FrameId} {page : Page}

/-- Every cached frame exists and holds the page that it is cached under. -/
def Framed (b : Buffer) : Prop :=
  ∀ id f, b.cached? id = some f → f.number < b.frames.size ∧ (b.page f).id = id

theorem cachedPage?_eq_some :
    b.cachedPage? id = some page ↔ ∃ f, b.cached? id = some f ∧ b.page f = page := by
  rw [cachedPage?, Option.map_eq_some_iff]

theorem cachedPage?_eq_none : b.cachedPage? id = none ↔ b.cached? id = none := by
  rw [cachedPage?, Option.map_eq_none_iff]

theorem cachedPage?_of_cached (h : b.cached? id = some f) : b.cachedPage? id = some (b.page f) := by
  rw [cachedPage?, h, Option.map_some]

theorem Framed.named (hb : b.Framed) (h : b.cachedPage? id = some page) : page.id = id := by
  obtain ⟨f, hf, rfl⟩ := cachedPage?_eq_some.mp h
  exact (hb id f hf).2

theorem Framed.eq_of_cached (hb : b.Framed) (h : b.cached? id = some f)
    (h' : b.cached? q = some f) :
    id = q :=
  (hb id f h).2.symm.trans (hb q f h').2

theorem framed_empty (capacity : Nat) : (empty capacity).Framed := by
  intro id f h
  cases h

/-- Buffers with the same frames and the same cache show the same. -/
theorem cachedPage?_congr (hframes : b'.frames = b.frames) (hcache : b'.cache = b.cache)
    (id : PageId) :
    b'.cachedPage? id = b.cachedPage? id := by
  have hpage : b'.page = b.page := by
    funext f
    rw [page, page, hframes]
  rw [cachedPage?, cachedPage?, cached?, cached?, hcache, hpage]

theorem Framed.congr (hb : b.Framed) (hframes : b'.frames = b.frames)
    (hcache : b'.cache = b.cache) :
    b'.Framed := by
  intro id f h
  rw [cached?, hcache] at h
  rw [page, hframes]
  exact hb id f h

/-! ## Changing a frame -/

theorem page_setPage (hf : f.number < b.frames.size) (page : Page) (g : FrameId) :
    (b.setPage f page).page g = if f = g then page else b.page g := by
  obtain ⟨n⟩ := f
  obtain ⟨m⟩ := g
  simp only [Buffer.page, setPage, Array.getD_eq_getD_getElem?, Array.getElem?_setIfInBounds]
  by_cases h : n = m
  · subst h
    have hn : n < b.frames.size := hf
    simp [hn]
  · simp [h]

theorem cachedPage?_setPage (hb : b.Framed) (h : b.cached? id = some f) (page : Page) (q : PageId) :
    (b.setPage f page).cachedPage? q = if q = id then some page else b.cachedPage? q := by
  have hcached : (b.setPage f page).cached? q = b.cached? q := rfl
  by_cases hq : q = id
  · subst hq
    rw [if_pos rfl, cachedPage?, hcached, h, Option.map_some, page_setPage (hb q f h).1, if_pos rfl]
  · rw [if_neg hq, cachedPage?, hcached, cachedPage?]
    cases hg : b.cached? q with
    | none => rfl
    | some g =>
      have hne : f ≠ g := by
        rintro rfl
        exact hq (hb.eq_of_cached hg h)
      rw [Option.map_some, Option.map_some, page_setPage (hb id f h).1, if_neg hne]

theorem Framed.setPage (hb : b.Framed) (h : b.cached? id = some f) (hid : page.id = id) :
    (b.setPage f page).Framed := by
  intro q g hg
  have hg' : b.cached? q = some g := hg
  constructor
  · have hsize : (b.setPage f page).frames.size = b.frames.size := Array.size_setIfInBounds
    rw [hsize]
    exact (hb q g hg').1
  · rw [page_setPage (hb id f h).1]
    split
    case isTrue heq =>
      subst heq
      rw [hid]
      exact hb.eq_of_cached h hg'
    case isFalse => exact (hb q g hg').2

theorem setPage_of_le (hf : b.frames.size ≤ f.number) (page : Page) : b.setPage f page = b := by
  rw [setPage, Array.setIfInBounds, dif_neg (Nat.not_lt.mpr hf)]

/-- Changing a page leaves all frames their identifiers. -/
theorem id_setPage (hid : page.id = (b.page f).id) (g : FrameId) :
    ((b.setPage f page).page g).id = (b.page g).id := by
  rcases Nat.lt_or_ge f.number b.frames.size with hlt | hge
  · rw [page_setPage hlt]
    split
    case isTrue heq => rw [hid, heq]
    case isFalse => rfl
  · rw [setPage_of_le hge]

theorem setPage_self (b : Buffer) (f : FrameId) : b.setPage f (b.page f) = b := by
  rcases Nat.lt_or_ge f.number b.frames.size with hlt | hge
  · rw [setPage, Buffer.page, Array.getD_eq_getD_getElem?, Array.getElem?_eq_getElem hlt,
      Option.getD_some, Array.setIfInBounds, dif_pos hlt, Array.set_getElem_self]
  · exact setPage_of_le hge _

theorem Framed.revise (hb : b.Framed) (hid : page.id = (b.page f).id) :
    (b.setPage f page).Framed := by
  intro q g hg
  obtain ⟨hlt, hq⟩ := hb q g hg
  refine ⟨?_, (id_setPage hid g).trans hq⟩
  rwa [Buffer.setPage, Array.size_setIfInBounds]

/-! ## Entering and leaving the cache -/

theorem cached?_enter (b : Buffer) (id : PageId) (f : FrameId) (q : PageId) :
    (b.enter id f).cached? q = if id = q then some f else b.cached? q :=
  SortedMap.get?_insert b.cache id q f

theorem page_congr (hframes : b'.frames = b.frames) (f : FrameId) : b'.page f = b.page f := by
  rw [page, page, hframes]

theorem frames_discard (b : Buffer) (id : PageId) : (b.discard id).frames = b.frames := by
  rw [discard]
  split <;> rfl

theorem holders_discard (b : Buffer) (id : PageId) : (b.discard id).holders = b.holders := by
  rw [discard]
  split <;> rfl

theorem cached?_discard (b : Buffer) (id q : PageId) :
    (b.discard id).cached? q = if id = q then none else b.cached? q := by
  rw [discard]
  split
  case isTrue => exact SortedMap.get?_erase b.cache id q
  case isFalse hnot =>
    split
    case isTrue heq =>
      subst heq
      exact Option.not_isSome_iff_eq_none.mp hnot
    case isFalse => rfl

theorem cachedPage?_discard (b : Buffer) (id q : PageId) :
    (b.discard id).cachedPage? q = if q = id then none else b.cachedPage? q := by
  have hpage : (b.discard id).page = b.page := by
    funext f
    rw [page, page, frames_discard]
  rw [cachedPage?, cached?_discard, hpage]
  by_cases hq : q = id
  · rw [if_pos hq.symm, if_pos hq, Option.map_none]
  · rw [if_neg (Ne.symm hq), if_neg hq, cachedPage?]

theorem Framed.discard (hb : b.Framed) (id : PageId) : (b.discard id).Framed := by
  intro q f hf
  rw [cached?_discard] at hf
  split at hf
  · cases hf
  · rw [frames_discard, page, frames_discard]
    exact hb q f hf

theorem clean_of_victim? {victim : PageId} (h : b.victim? = some victim) :
    ∃ f, b.cached? victim = some f ∧ (b.page f).dirtier = none := by
  have hevictable : b.isEvictable victim = true := List.find?_some h
  rw [isEvictable] at hevictable
  cases hf : b.cached? victim with
  | none => simp [hf] at hevictable
  | some f =>
    simp only [hf, Bool.and_eq_true, Bool.not_eq_true', Page.isDirty] at hevictable
    refine ⟨f, rfl, Option.not_isSome_iff_eq_none.mp ?_⟩
    rw [hevictable.2]
    exact Bool.false_ne_true

/-- A new frame is cached, and perhaps a clean page goes. -/
structure Added (b b' : Buffer) (id : PageId) (page : Page) : Prop where
  framed : b'.Framed
  cached : b'.cachedPage? id = some page
  others : ∀ q, q ≠ id → b'.cachedPage? q = b.cachedPage? q ∨
    b'.cachedPage? q = none ∧ ∃ old, b.cachedPage? q = some old ∧ old.dirtier = none

theorem page_load (b : Buffer) (page : Page) (f : FrameId) :
    (b.load page).2.page f =
      if f.number = b.frames.size then page else b.page f := by
  simp only [load, Buffer.page, Array.getD_eq_getD_getElem?, Array.getElem?_push]
  split <;> rfl

theorem cachedPage?_load (hb : b.Framed) (page : Page) (q : PageId) :
    (b.load page).2.cachedPage? q = b.cachedPage? q := by
  have hcached : (b.load page).2.cached? q = b.cached? q := rfl
  rw [cachedPage?, hcached, cachedPage?]
  cases hf : b.cached? q with
  | none => rfl
  | some f => rw [Option.map_some, Option.map_some, page_load, if_neg (Nat.ne_of_lt (hb q f hf).1)]

theorem Framed.load (hb : b.Framed) (page : Page) : (b.load page).2.Framed := by
  intro q f hf
  have hlt := (hb q f hf).1
  constructor
  · simp only [Buffer.load, Array.size_push]
    omega
  · rw [page_load, if_neg (Nat.ne_of_lt hlt)]
    exact (hb q f hf).2

theorem cachedPage?_enter (b : Buffer) (id : PageId) (f : FrameId) (q : PageId) :
    (b.enter id f).cachedPage? q = if q = id then some (b.page f) else b.cachedPage? q := by
  have hpage : (b.enter id f).page = b.page := rfl
  rw [cachedPage?, cached?_enter, hpage]
  by_cases hq : q = id
  · rw [if_pos hq.symm, if_pos hq, Option.map_some]
  · rw [if_neg (Ne.symm hq), if_neg hq, cachedPage?]

theorem Framed.enter (hb : b.Framed) (hf : f.number < b.frames.size) (hid : (b.page f).id = id) :
    (b.enter id f).Framed := by
  intro q g hg
  rw [cached?_enter] at hg
  split at hg
  case isTrue heq =>
    cases hg
    exact ⟨hf, hid.trans heq⟩
  case isFalse => exact hb q g hg

/-- A page that is added comes into the cache, and another one may leave it. -/
theorem eq_of_add (h : b.add id f = .ok b') :
    b' = b.enter id f ∨
      ∃ victim, b.victim? = some victim ∧ b' = (b.discard victim).enter id f := by
  rw [add] at h
  split at h
  case isFalse => exact Or.inl (Except.ok.inj h).symm
  case isTrue =>
    split at h
    case h_1 victim hvictim => exact Or.inr ⟨victim, hvictim, (Except.ok.inj h).symm⟩
    case h_2 => cases h

theorem added_of_add (hb : b.Framed) (hf : f.number < b.frames.size) (hid : (b.page f).id = id)
    (h : b.add id f = .ok b') : Added b b' id (b.page f) ∧ b'.cached? id = some f := by
  rcases eq_of_add h with rfl | ⟨victim, hvictim, rfl⟩
  · refine ⟨⟨hb.enter hf hid, ?_, fun q hq => Or.inl ?_⟩, by rw [cached?_enter, if_pos rfl]⟩
    · rw [cachedPage?_enter, if_pos rfl]
    · rw [cachedPage?_enter, if_neg hq]
  · have hpage : (b.discard victim).page f = b.page f := by rw [page, page, frames_discard]
    obtain ⟨g, hg, hclean⟩ := clean_of_victim? hvictim
    refine ⟨⟨(hb.discard victim).enter ?_ ?_, ?_, fun q hq => ?_⟩,
      by rw [cached?_enter, if_pos rfl]⟩
    · rwa [frames_discard]
    · rwa [hpage]
    · rw [cachedPage?_enter, if_pos rfl, hpage]
    · rw [cachedPage?_enter, if_neg hq, cachedPage?_discard]
      by_cases hqv : q = victim
      · subst hqv
        rw [if_pos rfl]
        exact Or.inr ⟨rfl, b.page g, cachedPage?_of_cached hg, hclean⟩
      · rw [if_neg hqv]
        exact Or.inl rfl

/-! ## What stays -/

theorem capacity_discard (b : Buffer) (id : PageId) : (b.discard id).capacity = b.capacity := by
  rw [Buffer.discard]
  split <;> rfl

theorem frames_add (h : b.add id f = .ok b') : b'.frames = b.frames := by
  rcases eq_of_add h with rfl | ⟨victim, -, rfl⟩
  · rfl
  · exact frames_discard b victim

theorem holders_add (h : b.add id f = .ok b') : b'.holders = b.holders := by
  rcases eq_of_add h with rfl | ⟨victim, -, rfl⟩
  · rfl
  · exact holders_discard b victim

theorem capacity_add (h : b.add id f = .ok b') : b'.capacity = b.capacity := by
  rcases eq_of_add h with rfl | ⟨victim, -, rfl⟩
  · rfl
  · exact capacity_discard b victim

end Buffer

end PagedHeap
