import PagedHeap.Proofs.Lock.Circles

/-!
# Who holds what

What the lock table says of its holders depends on requests and releases alone, not on who sleeps.
So this is said of every table that arises from requests and releases in any order, by anybody, in
particular while woken requests are still to be made again.
-/

namespace PagedHeap

/-- Two transactions cannot hold a page in these modes at once. -/
def LockMode.Conflicts (m m' : LockMode) : Prop :=
  m = .exclusive ∨ m' = .exclusive

theorem SortedSet.toList_eq_singleton {κ : Type} [Ranked κ] {s : SortedSet κ} {k : κ}
    (hs : ∀ j, j ∈ s ↔ j = k) : s.toList = [k] := by
  have hlength : s.toList.length = 1 := by
    rw [length_toList, size_eq_one_iff ((hs k).mpr rfl)]
    exact fun j hj => (hs j).mp hj
  obtain ⟨j, hj⟩ := List.length_eq_one_iff.mp hlength
  have hmem : j ∈ s := mem_toList.mp (hj ▸ List.mem_singleton_self j)
  rw [hj, (hs j).mp hmem]

namespace Grant

variable {g g' : Grant} {t u : TxnId} {m m' : LockMode}

theorem not_conflicts : ¬ m.Conflicts m' ↔ m = .shared ∧ m' = .shared := by
  cases m <;> cases m' <;> simp [LockMode.Conflicts]

theorem eq_vacant (hwf : g.WellFormed) (hnone : ∀ h, h ∉ g.holders) : g = vacant := by
  obtain ⟨mode, holders⟩ := g
  have hholders : holders = ∅ := by
    ext h
    exact ⟨fun hh => absurd hh (hnone h), fun hh => absurd hh (SortedSet.not_mem_empty h)⟩
  subst hholders
  cases mode with
  | shared => rfl
  | exclusive =>
    obtain ⟨s, hs⟩ := hwf rfl
    exact absurd ((hs s).mpr rfl) (hnone s)

/-- A request is granted at once unless another holder is in its way. -/
theorem grant?_isSome_iff (hwf : g.WellFormed) :
    (g.grant? t m).isSome ↔ ∀ h, h ∈ g.holders → h ≠ t → ¬ g.mode.Conflicts m := by
  constructor
  · intro hsome h hh hne
    obtain ⟨g', hg'⟩ := Option.isSome_iff_exists.mp hsome
    rw [not_conflicts]
    rcases (grant?_eq_some hg').2.2 with rfl | ⟨-, hadmits, -⟩
    · -- The request was covered, by a lock that the other holder shares.
      obtain ⟨ht, hcovers⟩ := satisfies_iff.mp (grant?_eq_some hg').2.1
      cases hmode : g'.mode with
      | exclusive => exact absurd (hwf.eq_of_owns ⟨ht, hmode⟩ hh) hne
      | shared =>
        rw [hmode] at hcovers
        cases m with
        | shared => exact ⟨rfl, rfl⟩
        | exclusive => simp [LockMode.covers] at hcovers
    · cases m with
      | shared => exact ⟨(admits_shared.mp hadmits).resolve_left fun hnone => hnone h hh, rfl⟩
      | exclusive =>
        rcases admits_exclusive.mp hadmits with hnone | ⟨-, hsole⟩
        · exact absurd hh (hnone h)
        · exact absurd (hsole h hh) hne
  · intro hfree
    rw [Option.isSome_iff_ne_none]
    intro hblocked
    obtain ⟨h, hblocker⟩ := exists_blocker hblocked
    obtain ⟨hh, hne⟩ := mem_blockers.mp hblocker
    obtain ⟨hmode, rfl⟩ := not_conflicts.mp (hfree h hh hne)
    have hadmits := (grant?_eq_none.mp hblocked).2
    rw [admits_shared.mpr (Or.inr hmode)] at hadmits
    cases hadmits

/-- Nobody's lock gets weaker by what is granted to somebody. -/
theorem satisfies_of_grant? (h : g.grant? t m = some g') (hu : g.satisfies u m' = true) :
    g'.satisfies u m' = true := by
  obtain ⟨hholders, -, rfl | ⟨-, -, hmode⟩⟩ := grant?_eq_some h
  · exact hu
  obtain ⟨hmem, hcovers⟩ := satisfies_iff.mp hu
  have hfilled : g.holders.isEmpty = false := by
    rw [← Bool.not_eq_true, SortedSet.isEmpty_iff]
    exact fun hnone => hnone u hmem
  refine satisfies_iff.mpr ⟨(hholders u).mpr (Or.inr hmem), ?_⟩
  rw [hmode, hfilled]
  cases m with
  | exclusive => rfl
  | shared => exact hcovers

/-- A grant concerns nobody but whom it is granted to. -/
theorem satisfies_eq_of_grant? (h : g.grant? t m = some g') (hne : u ≠ t) :
    g'.satisfies u m' = g.satisfies u m' := by
  rw [Bool.eq_iff_iff]
  refine ⟨fun hu => ?_, satisfies_of_grant? h⟩
  obtain ⟨hholders, -, rfl | ⟨-, hadmits, hmode⟩⟩ := grant?_eq_some h
  · exact hu
  obtain ⟨hmem, hcovers⟩ := satisfies_iff.mp hu
  have hheld : u ∈ g.holders := ((hholders u).mp hmem).resolve_left hne
  refine satisfies_iff.mpr ⟨hheld, ?_⟩
  cases m with
  | exclusive =>
    rcases admits_exclusive.mp hadmits with hnone | ⟨-, hsole⟩
    · exact absurd hheld (hnone u)
    · exact absurd (hsole u hheld) hne
  | shared =>
    have hfilled : g.holders.isEmpty = false := by
      rw [← Bool.not_eq_true, SortedSet.isEmpty_iff]
      exact fun hnone => hnone u hheld
    rw [hmode, hfilled] at hcovers
    exact hcovers

theorem satisfies_release (hne : u ≠ t) : (g.release t).satisfies u m = g.satisfies u m := by
  rw [Bool.eq_iff_iff, satisfies_iff, satisfies_iff, mem_release, and_assoc]
  refine ⟨fun ⟨_, hmem, hcovers⟩ => ⟨hmem, ?_⟩, fun ⟨hmem, hcovers⟩ => ⟨hne, hmem, ?_⟩⟩
  all_goals
    have hfilled : (g.holders.erase t).isEmpty = false := by
      rw [← Bool.not_eq_true, SortedSet.isEmpty_iff]
      exact fun hnone => hnone u (SortedSet.mem_erase.mpr ⟨hne.symm, hmem⟩)
    simpa [Grant.release, hfilled] using hcovers

end Grant

namespace LockTable

open WaitGraph

variable {l : LockTable} {r : LockRequest} {c : Command} {t u : TxnId} {p : PageId} {m : LockMode}

/-! ## Requests, whatever was recorded before -/

theorem request_cases_any (l : LockTable) (r : LockRequest) :
    (∃ g, (l.grantOf r.page).grant? r.txn r.mode = some g ∧
      l.request r = (.granted, l.grantTo r g)) ∨
    ((l.grantOf r.page).grant? r.txn r.mode = none ∧
      (l.request r = (.deadlock, l.refuse r) ∨ l.request r = (.asleep, l.putToSleep r))) := by
  cases hgrant : (l.grantOf r.page).grant? r.txn r.mode with
  | some g => exact Or.inl ⟨g, rfl, request_eq_granted hgrant⟩
  | none =>
    refine Or.inr ⟨rfl, ?_⟩
    simp only [request, hgrant, setWaits]
    split
    case h_1 hwaits =>
      split at hwaits
      · cases hwaits
      · cases hwaits
        exact Or.inr rfl
    case h_2 hwaits =>
      split at hwaits
      · cases hwaits
        exact Or.inl rfl
      · cases hwaits

theorem granted_iff :
    (l.request r).1 = .granted ↔ ((l.grantOf r.page).grant? r.txn r.mode).isSome := by
  rcases request_cases_any l r with ⟨g, hgrant, h⟩ | ⟨hblocked, h | h⟩
  · simp [h, hgrant]
  · simp [h, hblocked]
  · simp [h, hblocked]

theorem grantOf_request_of_granted (h : (l.request r).1 = .granted) :
    (l.grantOf r.page).grant? r.txn r.mode = some ((l.request r).2.grantOf r.page) := by
  rcases request_cases_any l r with ⟨g, hgrant, hreq⟩ | ⟨-, hreq | hreq⟩
  · rw [hgrant, hreq, grantOf_grantTo, if_pos rfl]
  · rw [hreq] at h
    cases h
  · rw [hreq] at h
    cases h

theorem holds_request (h : l.holds t p m = true) : (l.request r).2.holds t p m = true := by
  rcases request_cases_any l r with ⟨g, hgrant, hreq⟩ | ⟨-, hreq | hreq⟩
  · rw [hreq, holds, grantOf_grantTo]
    split
    case isTrue heq =>
      subst heq
      exact Grant.satisfies_of_grant? hgrant h
    case isFalse => exact h
  · rw [hreq]
    exact h
  · rw [hreq]
    exact h

/-- A request adds nobody but its transaction to the holders. -/
theorem mem_holders_request (h : t ∈ ((l.request r).2.grantOf p).holders) :
    t = r.txn ∨ t ∈ (l.grantOf p).holders := by
  rcases request_cases_any l r with ⟨g, hgrant, hreq⟩ | ⟨-, hreq | hreq⟩
  · rw [hreq, grantOf_grantTo] at h
    split at h
    case isTrue heq =>
      subst heq
      exact ((Grant.grant?_eq_some hgrant).1 t).mp h
    case isFalse => exact Or.inr h
  · rw [hreq] at h
    exact Or.inr h
  · rw [hreq] at h
    exact Or.inr h

/-- Whatever a request records leads from its transaction to a holder of its page. -/
theorem edge_request (h : (l.request r).2.waits.Edge t u) :
    l.waits.Edge t u ∨ t = r.txn ∧ u ∈ (l.grantOf r.page).holders := by
  rcases request_cases_any l r with ⟨g, hgrant, hreq⟩ | ⟨-, hreq | hreq⟩
  · rw [hreq] at h
    exact Or.inl (edge_clear.mp h).2
  · rw [hreq] at h
    exact Or.inl (edge_refuse.mp h).2
  · rw [hreq] at h
    replace h := edge_waitsWith.mp h
    split at h
    case isTrue heq => exact Or.inr ⟨heq, h.1⟩
    case isFalse => exact Or.inl h

/-! ## Requests and releases in any order -/

/-- The table right after a command, before anybody whom it wakes has made its request again.  Such
a request is made by a command of its own. -/
def after (l : LockTable) : Command → LockTable
  | .acquire t p m => (l.request ⟨t, p, m⟩).2
  | .release t p => (l.release t p).2
  | .releaseAll t => (l.releaseAll t).2

def afterAll (l : LockTable) (cs : List Command) : LockTable :=
  cs.foldl after l

/-- Some requests and releases lead to the table.  Nothing is asked of those who make them, not even
that they are awake. -/
def Arises (l : LockTable) : Prop :=
  ∃ cs, afterAll ∅ cs = l

theorem Arises.afterAll (hl : l.Arises) (cs : List Command) : (l.afterAll cs).Arises := by
  obtain ⟨before, rfl⟩ := hl
  exact ⟨before ++ cs, List.foldl_append⟩

theorem afterAll_retry (l : LockTable) (woken : List LockRequest) :
    (retry woken l).2 = l.afterAll (woken.map fun r => .acquire r.txn r.page r.mode) := by
  induction woken generalizing l with
  | nil => rfl
  | cons r rest ih => exact ih (l.request r).2

/-- Tables between two steps are among these. -/
theorem Reachable.arises (hl : l.Reachable) : l.Arises := by
  induction hl with
  | refl => exact ⟨[], rfl⟩
  | tail _ hstep ih =>
    cases hstep with
    | acquire r _ => exact ih.afterAll [.acquire r.txn r.page r.mode]
    | release t p order _ _ =>
      rw [afterAll_retry]
      exact (ih.afterAll [.release t p]).afterAll _
    | releaseAll t order _ _ =>
      rw [afterAll_retry]
      exact (ih.afterAll [.releaseAll t]).afterAll _

theorem grantOf_release (l : LockTable) (t : TxnId) (p q : PageId) :
    (l.release t p).2.grantOf q = if p = q then (l.grantOf q).release t else l.grantOf q := by
  rw [← grantOf_withoutPage, release_eq]
  split <;> rfl

/-- Whoever has a page for itself keeps it while others release theirs. -/
theorem owns_release (hne : u ≠ t) (q : PageId) :
    ((l.release t p).2.grantOf q).Owns u ↔ (l.grantOf q).Owns u := by
  have hsame : ∀ g : Grant, (g.release t).Owns u ↔ g.Owns u := fun g => by
    rw [Grant.Owns, Grant.Owns, ← Grant.covers_exclusive, ← Grant.covers_exclusive,
      ← Grant.satisfies_iff, ← Grant.satisfies_iff, Grant.satisfies_release hne]
  rw [grantOf_release]
  split
  case isTrue => exact hsame _
  case isFalse => exact Iff.rfl

theorem edge_release : (l.release t p).2.waits.Edge u h ↔ l.waits.Edge u h := by
  rw [release_eq]
  split <;> exact Iff.rfl

theorem Booked.after (hl : l.Booked) (c : Command) : (l.after c).Booked := by
  cases c with
  | acquire t p m =>
    rcases request_cases_any l ⟨t, p, m⟩ with ⟨g, hgrant, hreq⟩ | ⟨-, hreq | hreq⟩
    · rw [LockTable.after, hreq]
      exact hl.grantTo hgrant
    · rw [LockTable.after, hreq]
      exact ⟨hl.wellFormed, hl.held_iff⟩
    · rw [LockTable.after, hreq]
      exact ⟨hl.wellFormed, hl.held_iff⟩
  | release t p =>
    have hbooked := hl.withoutPage t p
    rw [LockTable.after, release_eq]
    split
    · exact ⟨hbooked.wellFormed, hbooked.held_iff⟩
    · exact hbooked
  | releaseAll t =>
    have hbooked := hl.without t
    exact ⟨hbooked.wellFormed, hbooked.held_iff⟩

theorem Booked.afterAll (hl : l.Booked) (cs : List Command) : (l.afterAll cs).Booked := by
  induction cs generalizing l with
  | nil => exact hl
  | cons c cs ih => exact ih (hl.after c)

theorem Arises.booked (hl : l.Arises) : l.Booked := by
  obtain ⟨cs, rfl⟩ := hl
  exact booked_empty.afterAll cs

/-- What a transaction does takes nothing from the locks of another one. -/
theorem holds_after (hne : c.txn ≠ t) (h : l.holds t p m = true) :
    (l.after c).holds t p m = true := by
  cases c with
  | acquire => exact holds_request h
  | release u q =>
    rw [after, holds, grantOf_release]
    split
    · exact (Grant.satisfies_release (Ne.symm hne)).trans h
    · exact h
  | releaseAll u =>
    rw [after, holds, grantOf_releaseAll]
    split
    · exact (Grant.satisfies_release (Ne.symm hne)).trans h
    · exact h

/-! ## A transaction that has left -/

/-- The transaction holds nothing, waits for nobody, and nobody waits for it. -/
structure Absent (t : TxnId) (l : LockTable) : Prop where
  holder : ∀ p, t ∉ (l.grantOf p).holders
  waiter : ∀ u, ¬ l.waits.Edge t u
  awaited : ∀ u, ¬ l.waits.Edge u t

theorem Booked.absent_releaseAll (hl : l.Booked) (t : TxnId) : (l.releaseAll t).2.Absent t where
  holder p hmem := by
    rw [grantOf_releaseAll] at hmem
    split at hmem
    case isTrue => exact (Grant.mem_release.mp hmem).1 rfl
    case isFalse hnot => exact hnot ((hl.held_iff t p).mpr hmem)
  waiter _ hedge := (edge_without.mp hedge).1 rfl
  awaited _ hedge := (edge_without.mp hedge).2.1 rfl

/-- Whoever has left stays away while others act. -/
theorem Absent.after (hl : l.Absent t) (hne : c.txn ≠ t) : (l.after c).Absent t := by
  cases c with
  | acquire u q m =>
    refine ⟨fun p hmem => ?_, fun v hedge => ?_, fun v hedge => ?_⟩
    · rcases mem_holders_request hmem with heq | hmem
      · exact hne heq.symm
      · exact hl.holder p hmem
    · rcases edge_request hedge with hedge | ⟨heq, -⟩
      · exact hl.waiter v hedge
      · exact hne heq.symm
    · rcases edge_request hedge with hedge | ⟨-, hmem⟩
      · exact hl.awaited v hedge
      · exact hl.holder q hmem
  | release u q =>
    refine ⟨fun p hmem => ?_, fun v hedge => hl.waiter v (edge_release.mp hedge),
      fun v hedge => hl.awaited v (edge_release.mp hedge)⟩
    rw [LockTable.after, grantOf_release] at hmem
    split at hmem
    · exact hl.holder p (Grant.mem_release.mp hmem).2
    · exact hl.holder p hmem
  | releaseAll u =>
    refine ⟨fun p hmem => ?_, fun v hedge => hl.waiter v (edge_without.mp hedge).2.2,
      fun v hedge => hl.awaited v (edge_without.mp hedge).2.2⟩
    rw [LockTable.after, grantOf_releaseAll] at hmem
    split at hmem
    · exact hl.holder p (Grant.mem_release.mp hmem).2
    · exact hl.holder p hmem

theorem Absent.afterAll (hl : l.Absent t) {cs : List Command} (hcs : ∀ c ∈ cs, c.txn ≠ t) :
    (l.afterAll cs).Absent t := by
  induction cs generalizing l with
  | nil => exact hl
  | cons c cs ih =>
    exact ih (hl.after (hcs c List.mem_cons_self)) fun c' hc' => hcs c' (List.mem_cons_of_mem _ hc')

theorem Booked.heldPages_eq_nil (hl : l.Booked) (hnone : ∀ p, t ∉ (l.grantOf p).holders) :
    l.heldPages t = [] :=
  List.eq_nil_iff_forall_not_mem.mpr fun p hp => hnone p ((hl.held_iff t p).mp hp)

/-! ## The discipline of the table -/

theorem Booked.info?_cases (hl : l.Booked) (p : PageId) :
    (l.info? p = none ∧ l.grantOf p = Grant.vacant) ∨
    (∃ ts, l.info? p = some (.shared, ts) ∧ ts ≠ []) ∨
    ∃ t, l.info? p = some (.exclusive, [t]) := by
  have hwf := hl.wellFormed p
  by_cases hempty : (l.grantOf p).holders.isEmpty = true
  · refine Or.inl ⟨?_, Grant.eq_vacant hwf (SortedSet.isEmpty_iff.mp hempty)⟩
    rw [info?, if_pos hempty]
  have hinfo : l.info? p = some ((l.grantOf p).mode, (l.grantOf p).holders.toList) := by
    rw [info?, if_neg hempty]
  cases hmode : (l.grantOf p).mode with
  | shared =>
    refine Or.inr (Or.inl ⟨_, hmode ▸ hinfo, fun hnil => hempty ?_⟩)
    rw [SortedSet.isEmpty_iff]
    intro h hh
    rw [← SortedSet.mem_toList, hnil] at hh
    cases hh
  | exclusive =>
    obtain ⟨s, hs⟩ := hwf hmode
    refine Or.inr (Or.inr ⟨s, ?_⟩)
    rw [hinfo, hmode, SortedSet.toList_eq_singleton hs]

/-- Everything that the table promises about its locks. -/
structure Disciplined (l : LockTable) : Prop where
  /-- A page is free and as if it had never been held, or shared, or one transaction's own. -/
  modes : ∀ p, (l.info? p = none ∧ l.grantOf p = Grant.vacant) ∨
    (∃ ts, l.info? p = some (.shared, ts) ∧ ts ≠ []) ∨
    ∃ t, l.info? p = some (.exclusive, [t])
  held_iff : ∀ t p, p ∈ l.heldPages t ↔ t ∈ (l.grantOf p).holders
  held_ascending : ∀ t, (l.heldPages t).Pairwise fun p q => rank p < rank q
  granted_iff : ∀ r, (l.request r).1 = .granted ↔
    ∀ h, h ∈ (l.grantOf r.page).holders → h ≠ r.txn → ¬ (l.grantOf r.page).mode.Conflicts r.mode
  /-- What a transaction holds already is granted again. -/
  reentrant : ∀ r, l.holds r.txn r.page r.mode = true → (l.request r).1 = .granted
  upgrade : ∀ r, (∀ h, h ∈ (l.grantOf r.page).holders → h = r.txn) → (l.request r).1 = .granted
  granted : ∀ r, (l.request r).1 = .granted → (l.request r).2.holds r.txn r.page r.mode = true
  stronger : ∀ r t p m, l.holds t p m = true → (l.request r).2.holds t p m = true
  /-- Nobody's step takes anything from another transaction's locks. -/
  others : ∀ c t p m, c.txn ≠ t → l.holds t p m = true → (l.after c).holds t p m = true
  /-- A transaction that has released everything is gone, and stays so while others act. -/
  gone : ∀ t cs, (∀ c ∈ cs, c.txn ≠ t) →
    ((l.releaseAll t).2.afterAll cs).Absent t ∧ ((l.releaseAll t).2.afterAll cs).heldPages t = []

theorem disciplined_of_arises (hl : l.Arises) : l.Disciplined := by
  have hbooked := hl.booked
  have hgranted : ∀ r, (l.request r).1 = .granted ↔ ∀ h, h ∈ (l.grantOf r.page).holders →
      h ≠ r.txn → ¬ (l.grantOf r.page).mode.Conflicts r.mode := fun r =>
    granted_iff.trans (Grant.grant?_isSome_iff (hbooked.wellFormed r.page))
  constructor
  case modes => exact hbooked.info?_cases
  case held_iff => exact hbooked.held_iff
  case held_ascending => exact fun t => SortedSet.toList_ascending _
  case granted_iff => exact hgranted
  case reentrant =>
    intro r hholds
    have hsatisfies : (l.grantOf r.page).satisfies r.txn r.mode = true := hholds
    rw [granted_iff, Grant.grant?, if_pos hsatisfies]
    rfl
  case upgrade => exact fun r hsole => (hgranted r).mpr fun h hh hne => absurd (hsole h hh) hne
  case granted =>
    exact fun r h => (Grant.grant?_eq_some (grantOf_request_of_granted h)).2.1
  case stronger => exact fun r t p m h => holds_request h
  case others => exact fun c t p m hne h => holds_after hne h
  case gone =>
    intro t cs hcs
    have habsent := (hbooked.absent_releaseAll t).afterAll hcs
    exact ⟨habsent, ((hbooked.after (.releaseAll t)).afterAll cs).heldPages_eq_nil habsent.holder⟩

theorem disciplined_of_arises_joined :
    Overtaking.joined.Arises ∧ Overtaking.joined.isAsleep ⟨2⟩ = true ∧
      Overtaking.joined.info? ⟨⟨1⟩, 0⟩ = some (.shared, [⟨1⟩, ⟨3⟩]) ∧ Overtaking.joined.Disciplined :=
  ⟨Overtaking.reachable_joined.arises, by decide, by decide,
    disciplined_of_arises Overtaking.reachable_joined.arises⟩

end LockTable

end PagedHeap
