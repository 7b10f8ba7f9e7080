import PagedHeap.Lock.Grant

/-!
# Granting the lock of one page

A granted request leaves the page with its holder among the holders, never takes anything from the
others, and never makes another transaction's refused request grantable.
-/

namespace PagedHeap

namespace SortedSet

variable {κ : Type} [Ranked κ]

theorem size_eq_one_iff {s : SortedSet κ} {k : κ} (hk : k ∈ s) :
    s.size = 1 ↔ ∀ j, j ∈ s → j = k := by
  rw [← length_toList]
  rw [← mem_toList] at hk
  constructor
  · intro hsize j hj
    obtain ⟨a, ha⟩ := List.length_eq_one_iff.mp hsize
    rw [← mem_toList, ha, List.mem_singleton] at hj
    rw [ha, List.mem_singleton] at hk
    exact hj.trans hk.symm
  · intro hall
    have hnodup : s.toList.Nodup := s.toList_ascending.imp fun {a b} hab heq => by
      rw [heq] at hab
      exact Nat.lt_irrefl _ hab
    match hlist : s.toList with
    | [] => simp [hlist] at hk
    | [_] => rfl
    | a :: b :: rest =>
      rw [hlist] at hnodup
      have ha : a = k := hall a (mem_toList.mp (by simp [hlist]))
      have hb : b = k := hall b (mem_toList.mp (by simp [hlist]))
      simp [ha, hb] at hnodup

end SortedSet

namespace Grant

variable {g g' : Grant} {t u : TxnId} {m m' : LockMode}

/-- An exclusive lock has one holder. -/
def WellFormed (g : Grant) : Prop :=
  g.mode = .exclusive → ∃ t, ∀ h, h ∈ g.holders ↔ h = t

/-- A holder that has the page for itself and may write it. -/
def Owns (g : Grant) (t : TxnId) : Prop :=
  t ∈ g.holders ∧ g.mode = .exclusive

theorem WellFormed.eq_of_owns (h : g.WellFormed) (howns : g.Owns t) (hu : u ∈ g.holders) :
    u = t := by
  obtain ⟨s, hs⟩ := h howns.2
  exact ((hs u).mp hu).trans ((hs t).mp howns.1).symm

theorem wellFormed_vacant : vacant.WellFormed := by
  intro h
  simp [vacant, LockMode.atRest] at h

theorem covers_shared (m : LockMode) : m.covers .shared = true := by
  cases m <;> rfl

theorem covers_exclusive : m.covers .exclusive = true ↔ m = .exclusive := by
  cases m <;> simp [LockMode.covers]

theorem isSoleHolder_iff :
    g.isSoleHolder t = true ↔ t ∈ g.holders ∧ ∀ h, h ∈ g.holders → h = t := by
  rw [isSoleHolder, Bool.and_eq_true, ← SortedSet.mem_iff, beq_iff_eq, and_comm]
  exact and_congr_right fun ht => SortedSet.size_eq_one_iff ht

theorem mem_blockers : u ∈ g.blockers t ↔ u ∈ g.holders ∧ u ≠ t := by
  simp [blockers]

theorem satisfies_iff : g.satisfies t m = true ↔ t ∈ g.holders ∧ g.mode.covers m = true := by
  rw [satisfies, Bool.and_eq_true, ← SortedSet.mem_iff]

theorem admits_shared : g.admits t .shared = true ↔ (∀ h, h ∉ g.holders) ∨ g.mode = .shared := by
  simp [admits, SortedSet.isEmpty_iff]

theorem admits_exclusive :
    g.admits t .exclusive = true ↔
      (∀ h, h ∉ g.holders) ∨ t ∈ g.holders ∧ ∀ h, h ∈ g.holders → h = t := by
  simp [admits, SortedSet.isEmpty_iff, isSoleHolder_iff]

theorem grant?_eq_none :
    g.grant? t m = none ↔ g.satisfies t m = false ∧ g.admits t m = false := by
  rw [grant?]
  split
  · simp_all
  · split <;> simp_all

/-- What a granted request leaves. -/
theorem grant?_eq_some (h : g.grant? t m = some g') :
    (∀ u, u ∈ g'.holders ↔ u = t ∨ u ∈ g.holders) ∧ g'.satisfies t m = true ∧
      (g' = g ∨ g.satisfies t m = false ∧ g.admits t m = true ∧
        g'.mode = if g.holders.isEmpty || m == .exclusive then m else g.mode) := by
  rw [grant?] at h
  split at h
  case isTrue hsat =>
    obtain rfl : g = g' := Option.some.inj h
    refine ⟨fun u => ⟨Or.inr, ?_⟩, hsat, Or.inl rfl⟩
    rintro (rfl | hu)
    · exact (satisfies_iff.mp hsat).1
    · exact hu
  case isFalse hsat =>
    split at h
    case isFalse => simp at h
    case isTrue hadmits =>
      obtain rfl := Option.some.inj h
      refine ⟨fun u => ?_, satisfies_iff.mpr ⟨by simp, ?_⟩,
        Or.inr ⟨Bool.not_eq_true _ ▸ hsat, hadmits, rfl⟩⟩
      · simp [eq_comm]
      · cases m with
        | exclusive => simp [LockMode.covers]
        | shared =>
          by_cases hempty : g.holders.isEmpty
          · simp [hempty, LockMode.covers]
          · rcases admits_shared.mp hadmits with hnone | hmode
            · exact absurd (SortedSet.isEmpty_iff.mpr hnone) hempty
            · simp [hmode, LockMode.covers]

theorem mem_holders_of_grant? (h : g.grant? t m = some g') : t ∈ g'.holders :=
  ((grant?_eq_some h).1 t).mpr (Or.inl rfl)

theorem owns_of_grant?_exclusive (h : g.grant? t .exclusive = some g') : g'.Owns t := by
  have hsat := satisfies_iff.mp (grant?_eq_some h).2.1
  exact ⟨hsat.1, covers_exclusive.mp hsat.2⟩

theorem WellFormed.grant? (hwf : g.WellFormed) (h : g.grant? t m = some g') : g'.WellFormed := by
  obtain ⟨hholders, -, rfl | ⟨-, hadmits, hmode⟩⟩ := grant?_eq_some h
  · exact hwf
  intro hexclusive
  -- Whatever made the mode exclusive, no other transaction held the page.
  have hall : ∀ u, u ∈ g.holders → u = t := by
    cases m with
    | exclusive =>
      rcases admits_exclusive.mp hadmits with hnone | ⟨-, hsole⟩
      · exact fun u hu => absurd hu (hnone u)
      · exact hsole
    | shared =>
      rcases admits_shared.mp hadmits with hnone | hshared
      · exact fun u hu => absurd hu (hnone u)
      · rw [hmode] at hexclusive
        split at hexclusive <;> simp_all
  exact ⟨t, fun u => (hholders u).trans ⟨fun hu => hu.elim id (hall u), Or.inl⟩⟩

/-- Nothing new is granted on a page that is held exclusively. -/
theorem admits_eq_false_of_exclusive (hexclusive : g.mode = .exclusive) (hu : u ∈ g.holders)
    (hnew : g.satisfies t m = false) : g.admits t m = false := by
  refine Bool.not_eq_true _ ▸ fun hadmits => ?_
  cases m with
  | shared =>
    rcases admits_shared.mp hadmits with hnone | hshared
    · exact hnone u hu
    · rw [hexclusive] at hshared
      cases hshared
  | exclusive =>
    rcases admits_exclusive.mp hadmits with hnone | ⟨ht, -⟩
    · exact hnone u hu
    · rw [satisfies_iff.mpr ⟨ht, covers_exclusive.mpr hexclusive⟩] at hnew
      cases hnew

theorem Owns.grant? (howns : g.Owns u) (h : g.grant? t m = some g') : g'.Owns u := by
  obtain ⟨-, -, rfl | ⟨hnew, hadmits, -⟩⟩ := grant?_eq_some h
  · exact howns
  · rw [admits_eq_false_of_exclusive howns.2 howns.1 hnew] at hadmits
    cases hadmits

theorem mem_release : u ∈ (g.release t).holders ↔ u ≠ t ∧ u ∈ g.holders := by
  rw [Grant.release, SortedSet.mem_erase, ne_comm]

theorem WellFormed.release (hwf : g.WellFormed) (t : TxnId) : (g.release t).WellFormed := by
  intro hexclusive
  cases hempty : (g.holders.erase t).isEmpty with
  | true => simp [Grant.release, hempty, LockMode.atRest] at hexclusive
  | false =>
    have hmode : g.mode = .exclusive := by
      simpa [Grant.release, hempty] using hexclusive
    obtain ⟨s, hs⟩ := hwf hmode
    -- Had the sole holder left, nobody would hold the page.
    have hne : s ≠ t := by
      rintro rfl
      have hnone : (g.holders.erase s).isEmpty = true := by
        rw [SortedSet.isEmpty_iff]
        intro u hu
        rw [SortedSet.mem_erase] at hu
        exact hu.1 ((hs u).mp hu.2).symm
      simp [hempty] at hnone
    refine ⟨s, fun u => ⟨fun hu => (hs u).mp (mem_release.mp hu).2, ?_⟩⟩
    rintro rfl
    exact mem_release.mpr ⟨hne, (hs u).mpr rfl⟩

theorem release_release (g : Grant) (t : TxnId) : (g.release t).release t = g.release t := by
  have herase : (g.holders.erase t).erase t = g.holders.erase t := by
    ext u
    simp
  simp only [release, herase]
  split <;> rfl

theorem WellFormed.release_of_not_mem (hwf : g.WellFormed) (ht : t ∉ g.holders) :
    g.release t = g := by
  have herase : g.holders.erase t = g.holders := by
    ext u
    rw [SortedSet.mem_erase]
    exact ⟨And.right, fun hu => ⟨fun heq => ht (heq ▸ hu), hu⟩⟩
  obtain ⟨mode, holders⟩ := g
  simp only [Grant.release, herase]
  split
  case isTrue hempty =>
    cases mode with
    | shared => rfl
    | exclusive =>
      obtain ⟨s, hs⟩ := hwf rfl
      exact absurd ((hs s).mpr rfl) (SortedSet.isEmpty_iff.mp hempty s)
  case isFalse => rfl

/-! ## Requests that have to wait -/

/-- Only holders other than the requester make it wait. -/
theorem exists_blocker (h : g.grant? t m = none) : ∃ u, u ∈ g.blockers t := by
  obtain ⟨hsat, hadmits⟩ := grant?_eq_none.mp h
  refine Classical.byContradiction fun hnone => ?_
  have hall : ∀ u, u ∈ g.holders → u = t := fun u hu =>
    Classical.byContradiction fun hne => hnone ⟨u, mem_blockers.mpr ⟨hu, hne⟩⟩
  by_cases ht : t ∈ g.holders
  · cases m with
    | exclusive => simp [admits_exclusive.mpr (Or.inr ⟨ht, hall⟩)] at hadmits
    | shared => simp [satisfies_iff.mpr ⟨ht, covers_shared g.mode⟩] at hsat
  · have hempty : ∀ u, u ∉ g.holders := fun u hu => ht (hall u hu ▸ hu)
    cases m with
    | exclusive => simp [admits_exclusive.mpr (Or.inl hempty)] at hadmits
    | shared => simp [admits_shared.mpr (Or.inl hempty)] at hadmits

/-- A request that waits goes on waiting when the page is granted to somebody else. -/
theorem grant?_eq_none_of_grant? (hblocked : g.grant? u m' = none) (hne : u ≠ t)
    (h : g.grant? t m = some g') : g'.grant? u m' = none := by
  obtain ⟨hholders, -, rfl | ⟨hnew, hadmits, hmode⟩⟩ := grant?_eq_some h
  · exact hblocked
  obtain ⟨hsat, hrefused⟩ := grant?_eq_none.mp hblocked
  obtain ⟨v, hv⟩ := exists_blocker hblocked
  have hv' := mem_blockers.mp hv
  have hfilled : g.holders.isEmpty = false := by
    rw [← Bool.not_eq_true, SortedSet.isEmpty_iff]
    exact fun hnone => hnone v hv'.1
  have ht : t ∈ g'.holders := (hholders t).mpr (Or.inl rfl)
  rw [grant?_eq_none, ← Bool.not_eq_true, ← Bool.not_eq_true]
  cases m' with
  | exclusive =>
    refine ⟨fun hsat' => ?_, fun hadmits' => ?_⟩
    · obtain ⟨hu, hcovers⟩ := satisfies_iff.mp hsat'
      have hu : u ∈ g.holders := ((hholders u).mp hu).resolve_left hne
      cases m with
      | exclusive =>
        rcases admits_exclusive.mp hadmits with hnone | ⟨-, hsole⟩
        · exact hnone u hu
        · exact hne (hsole u hu)
      | shared =>
        -- A shared grant leaves the mode, so the request was satisfied before.
        have hsame : g'.mode = g.mode := by
          rw [hmode, hfilled]
          rfl
        rw [hsame] at hcovers
        rw [satisfies_iff.mpr ⟨hu, hcovers⟩] at hsat
        cases hsat
    · rcases admits_exclusive.mp hadmits' with hnone | ⟨-, hsole⟩
      · exact hnone t ht
      · exact hne (hsole t ht).symm
  | shared =>
    have hexclusive : g.mode = .exclusive := by
      cases hm : g.mode with
      | exclusive => rfl
      | shared =>
        rw [admits_shared.mpr (Or.inr hm)] at hrefused
        cases hrefused
    rw [admits_eq_false_of_exclusive hexclusive hv'.1 hnew] at hadmits
    cases hadmits

end Grant

end PagedHeap
