import PagedHeap.Proofs.Lock.Waking
import Mathlib.Data.Fintype.EquivFin

/-!
# The lock table drains

Following the records from any sleeper one comes to a transaction that is awake, since there are no
circles and every sleeper waits for somebody.  When such a transaction releases everything, it is
neither asleep nor holds a lock, and the requests that it wakes bring in nobody new.
-/

namespace PagedHeap.LockTable

open Relation WaitGraph

/-- Awake transactions release locks, and nobody asks for any.  What is counted is how often one
that holds locks releases them all. -/
inductive Drain (l : LockTable) : Nat → LockTable → Prop
  | start : Drain l 0 l
  | release {n l'} (t : TxnId) (p : PageId) (order : List LockRequest) (hdrain : Drain l n l')
      (hawake : l'.isAsleep t = false) (hperm : order.Perm (l'.release t p).1) :
      Drain l n (retry order (l'.release t p).2).2
  | releaseAll {n l'} (t : TxnId) (order : List LockRequest) (hdrain : Drain l n l')
      (hawake : l'.isAsleep t = false) (hperm : order.Perm (l'.releaseAll t).1) :
      Drain l (if l'.heldPages t = [] then n else n + 1) (retry order (l'.releaseAll t).2).2

variable {l l' : LockTable} {r : LockRequest} {woken order : List LockRequest} {t u : TxnId}
  {p : PageId} {n : Nat}

/-! ## Transactions at work -/

/-- The transactions that sleep or hold a lock, in order. -/
def engaged (l : LockTable) : List TxnId :=
  (SortedSet.ofList (l.asleep ++ l.locked.flatMap fun e => e.2.2)).toList

/-- Nobody sleeps and no page is locked. -/
structure Quiet (l : LockTable) : Prop where
  sleepers : l.sleepers = []
  locked : l.locked = []

theorem mem_locked {e : PageId × LockMode × List TxnId} :
    e ∈ l.locked ↔ l.info? e.1 = some e.2 := by
  rw [locked, List.mem_filterMap]
  constructor
  · rintro ⟨q, -, hq⟩
    obtain ⟨info, hinfo, rfl⟩ := Option.map_eq_some_iff.mp hq
    exact hinfo
  · intro hinfo
    have hlisted : e.1 ∈ l.grants.keys := by
      rw [SortedMap.mem_keys, SortedMap.contains]
      cases hget : l.grants.get? e.1 with
      | some g => rfl
      | none =>
        rw [info?, grantOf, hget] at hinfo
        exact absurd hinfo.symm (Option.some_ne_none e.2)
    exact ⟨e.1, hlisted, Option.map_eq_some_iff.mpr ⟨e.2, hinfo, rfl⟩⟩

theorem mem_holders_iff_locked :
    t ∈ (l.grantOf p).holders ↔ ∃ info, (p, info) ∈ l.locked ∧ t ∈ info.2 := by
  simp only [mem_locked, info?]
  constructor
  · intro ht
    have hfilled : ¬ (l.grantOf p).holders.isEmpty = true := fun hempty =>
      SortedSet.isEmpty_iff.mp hempty t ht
    exact ⟨_, if_neg hfilled, SortedSet.mem_toList.mpr ht⟩
  · rintro ⟨info, hinfo, ht⟩
    split at hinfo
    case isTrue => exact absurd hinfo.symm (Option.some_ne_none info)
    case isFalse =>
      obtain rfl := Option.some.inj hinfo
      exact SortedSet.mem_toList.mp ht

theorem mem_engaged :
    t ∈ l.engaged ↔ (∃ r ∈ l.sleepers, r.txn = t) ∨ ∃ p, t ∈ (l.grantOf p).holders := by
  rw [engaged, SortedSet.mem_toList, SortedSet.mem_ofList, List.mem_append, asleep,
    SortedSet.mem_toList, SortedSet.mem_ofList, List.mem_map, List.mem_flatMap]
  refine or_congr_right ⟨fun ⟨e, he, ht⟩ => ?_, fun ⟨p, ht⟩ => ?_⟩
  · exact ⟨e.1, mem_holders_iff_locked.mpr ⟨e.2, he, ht⟩⟩
  · obtain ⟨info, hinfo, ht⟩ := mem_holders_iff_locked.mp ht
    exact ⟨(p, info), hinfo, ht⟩

theorem nodup_engaged (l : LockTable) : l.engaged.Nodup := by
  refine (SortedSet.toList_ascending _).imp fun {a b} hab heq => ?_
  rw [heq] at hab
  exact Nat.lt_irrefl _ hab

theorem quiet_iff : l.Quiet ↔ l.engaged = [] := by
  rw [List.eq_nil_iff_forall_not_mem]
  constructor
  · rintro ⟨hsleepers, hlocked⟩ t ht
    rcases mem_engaged.mp ht with ⟨r, hr, -⟩ | ⟨p, ht⟩
    · rw [hsleepers] at hr
      exact List.not_mem_nil hr
    · obtain ⟨info, hinfo, -⟩ := mem_holders_iff_locked.mp ht
      rw [hlocked] at hinfo
      exact List.not_mem_nil hinfo
  · intro hnone
    refine ⟨List.eq_nil_iff_forall_not_mem.mpr fun r hr => ?_,
      List.eq_nil_iff_forall_not_mem.mpr fun e he => ?_⟩
    · exact hnone r.txn (mem_engaged.mpr (Or.inl ⟨r, hr, rfl⟩))
    · have hinfo := mem_locked.mp he
      rw [info?] at hinfo
      split at hinfo
      case isTrue => exact Option.some_ne_none e.2 hinfo.symm
      case isFalse hfilled =>
        refine hfilled (SortedSet.isEmpty_iff.mpr fun t ht => ?_)
        exact hnone t (mem_engaged.mpr (Or.inr ⟨e.1, ht⟩))

/-! ## Who is engaged after a step -/

theorem engaged_request (hac : l.waits.Acyclic) (hmem : u ∈ (l.request r).2.engaged) :
    u = r.txn ∨ u ∈ l.engaged := by
  rw [mem_engaged] at hmem
  rw [mem_engaged]
  rcases request_cases hac r with
    ⟨g, hgrant, hrequest⟩ | ⟨-, -, hrequest⟩ | ⟨-, -, hrequest⟩
  · rw [hrequest] at hmem
    rcases hmem with hasleep | ⟨p, hp⟩
    · exact Or.inr (Or.inl hasleep)
    · rw [grantOf_grantTo] at hp
      split at hp
      case isTrue =>
        rcases ((Grant.grant?_eq_some hgrant).1 u).mp hp with heq | hp
        · exact Or.inl heq
        · exact Or.inr (Or.inr ⟨_, hp⟩)
      case isFalse => exact Or.inr (Or.inr ⟨p, hp⟩)
  · rw [hrequest] at hmem
    exact Or.inr hmem
  · rw [hrequest] at hmem
    rcases hmem with ⟨r', hr', rfl⟩ | hholds
    · rcases List.mem_append.mp hr' with hr' | hr'
      · exact Or.inr (Or.inl ⟨r', hr', rfl⟩)
      · exact Or.inl (congrArg LockRequest.txn (List.mem_singleton.mp hr'))
    · exact Or.inr (Or.inr hholds)

theorem engaged_retry (hl : Sound woken l) (hmem : u ∈ (retry woken l).2.engaged) :
    (∃ r ∈ woken, r.txn = u) ∨ u ∈ l.engaged := by
  induction woken generalizing l with
  | nil => exact Or.inr hmem
  | cons r rest ih =>
    rcases ih hl.request hmem with ⟨r', hr', heq⟩ | hmem
    · exact Or.inl ⟨r', List.mem_cons_of_mem _ hr', heq⟩
    · rcases engaged_request hl.acyclic hmem with heq | hmem
      · exact Or.inl ⟨r, List.mem_cons_self, heq.symm⟩
      · exact Or.inr hmem

/-- A release and the retries of those that it wakes bring in nobody new. -/
theorem engaged_released (hperm : order.Perm woken) (hsound : Sound woken l')
    (hmem : ∀ r, r ∈ woken ∨ r ∈ l'.sleepers → r ∈ l.sleepers)
    (hgrant : ∀ q, l'.grantOf q = l.grantOf q ∨ l'.grantOf q = (l.grantOf q).release t)
    (hu : u ∈ (retry order l').2.engaged) : u ∈ l.engaged := by
  rcases engaged_retry (hsound.perm hperm) hu with ⟨r, hr, rfl⟩ | hu
  · exact mem_engaged.mpr (Or.inl ⟨r, hmem r (Or.inl (hperm.mem_iff.mp hr)), rfl⟩)
  · rcases mem_engaged.mp hu with ⟨r, hr, rfl⟩ | ⟨p, hp⟩
    · exact mem_engaged.mpr (Or.inl ⟨r, hmem r (Or.inr hr), rfl⟩)
    · rcases hgrant p with hsame | hreleased
      · exact mem_engaged.mpr (Or.inr ⟨p, hsame ▸ hp⟩)
      · rw [hreleased] at hp
        exact mem_engaged.mpr (Or.inr ⟨p, (Grant.mem_release.mp hp).2⟩)

theorem engaged_release (hl : Sound [] l) (hperm : order.Perm (l.release t p).1)
    (hu : u ∈ (retry order (l.release t p).2).2.engaged) : u ∈ l.engaged :=
  engaged_released hperm (hl.release t p) (fun _ hr => (mem_release l t p).mp hr)
    (grantOf_release_cases l t p) hu

theorem engaged_releaseAll (hl : Sound [] l) (hawake : l.isAsleep t = false)
    (hperm : order.Perm (l.releaseAll t).1)
    (hu : u ∈ (retry order (l.releaseAll t).2).2.engaged) : u ∈ l.engaged :=
  engaged_released hperm (hl.releaseAll hawake) (fun _ hr => (mem_releaseAll l t).mp hr)
    (grantOf_releaseAll_cases l t) hu

/-- Whoever released everything is no longer engaged. -/
theorem not_engaged_releaseAll (hl : Sound [] l) (hawake : l.isAsleep t = false)
    (hperm : order.Perm (l.releaseAll t).1) : t ∉ (retry order (l.releaseAll t).2).2.engaged := by
  have hdropped := departed_dropLocks hl (isAsleep_eq_false.mp hawake)
  have hdeparted : Departed t [] (retry order (l.releaseAll t).2).2 :=
    (hdropped.forget.perm hperm).retry
  rw [mem_engaged]
  rintro (⟨r, hr, heq⟩ | ⟨p, hp⟩)
  · exact hdeparted.awake r hr heq
  · exact hdeparted.lockless p hp

theorem engaged_of_heldPages (hl : l.Booked) (hheld : l.heldPages t ≠ []) : t ∈ l.engaged := by
  obtain ⟨p, hp⟩ := List.exists_mem_of_ne_nil _ hheld
  exact mem_engaged.mpr (Or.inr ⟨p, (hl.held_iff t p).mp hp⟩)

theorem length_engaged_releaseAll (hl : Sound [] l) (hawake : l.isAsleep t = false)
    (hheld : l.heldPages t ≠ []) (hperm : order.Perm (l.releaseAll t).1) :
    (retry order (l.releaseAll t).2).2.engaged.length < l.engaged.length := by
  have hsubset : t :: (retry order (l.releaseAll t).2).2.engaged ⊆ l.engaged := by
    refine List.cons_subset.mpr ⟨engaged_of_heldPages hl.toBooked hheld, fun u hu => ?_⟩
    exact engaged_releaseAll hl hawake hperm hu
  have hnodup : (t :: (retry order (l.releaseAll t).2).2.engaged).Nodup :=
    List.nodup_cons.mpr ⟨not_engaged_releaseAll hl hawake hperm, nodup_engaged _⟩
  exact (List.subperm_of_subset hnodup hsubset).length_le

/-! ## The way to somebody awake -/

instance : Finite TxnId :=
  Finite.of_injective (fun t => t.number.toFin) fun a b h => by
    obtain ⟨a⟩ := a
    obtain ⟨b⟩ := b
    exact congrArg TxnId.mk (UInt64.toFin_inj.mp h)

theorem wellFounded_of_acyclic {g : WaitGraph} (hac : g.Acyclic) :
    WellFounded fun a b => TransGen g.Edge b a := by
  have htrans : IsTrans TxnId fun a b => TransGen g.Edge b a :=
    ⟨fun _ _ _ hab hbc => hbc.trans hab⟩
  have hirrefl : Std.Irrefl fun a b => TransGen g.Edge b a := ⟨hac⟩
  exact Finite.wellFounded_of_trans_of_irrefl _

/-- Somebody awake holds a lock that the sleeper waits for, directly or through others. -/
theorem Sound.exists_awake (hl : Sound [] l) (hr : r ∈ l.sleepers) :
    ∃ h, TransGen l.waits.Edge r.txn h ∧ l.isAsleep h = false ∧ l.heldPages h ≠ [] := by
  suffices hall : ∀ t, (∃ r ∈ l.sleepers, r.txn = t) →
      ∃ h, TransGen l.waits.Edge t h ∧ l.isAsleep h = false ∧ l.heldPages h ≠ [] from
    hall r.txn ⟨r, hr, rfl⟩
  intro t
  -- Along the edges, of which there are finitely many in a row since they make no circle.
  induction t using (wellFounded_of_acyclic hl.acyclic).induction with
  | _ t ih =>
    rintro ⟨r, hr, rfl⟩
    obtain ⟨h, hedge⟩ := hl.recorded_some r hr
    have hholds := (hl.recorded r hr h hedge).1
    by_cases hawake : ∃ r' ∈ l.sleepers, r'.txn = h
    · obtain ⟨v, hpath, hv⟩ := ih h (.single hedge) hawake
      exact ⟨v, .head hedge hpath, hv⟩
    · refine ⟨h, .single hedge, isAsleep_eq_false.mpr fun r' hr' heq => hawake ⟨r', hr', heq⟩, ?_⟩
      exact List.ne_nil_of_mem ((hl.held_iff h r.page).mpr hholds)

/-- As long as the table is not quiet, somebody can release everything. -/
theorem Sound.quiet_or_exists_awake (hl : Sound [] l) :
    l.Quiet ∨ ∃ t, l.isAsleep t = false ∧ l.heldPages t ≠ [] := by
  by_cases hsome : ∃ r, r ∈ l.sleepers
  · obtain ⟨r, hr⟩ := hsome
    obtain ⟨h, -, hawake, hheld⟩ := hl.exists_awake hr
    exact Or.inr ⟨h, hawake, hheld⟩
  · cases hengaged : l.engaged with
    | nil => exact Or.inl (quiet_iff.mpr hengaged)
    | cons t rest =>
      have ht : t ∈ l.engaged := hengaged ▸ List.mem_cons_self
      rcases mem_engaged.mp ht with ⟨r, hr, -⟩ | ⟨p, hp⟩
      · exact absurd ⟨r, hr⟩ hsome
      · refine Or.inr ⟨t, isAsleep_eq_false.mpr fun r hr => absurd ⟨r, hr⟩ hsome, ?_⟩
        exact List.ne_nil_of_mem ((hl.held_iff t p).mpr hp)

/-! ## Draining -/

namespace Drain

theorem reachable (hdrain : l.Drain n l') (hl : l.Reachable) : l'.Reachable := by
  induction hdrain with
  | start => exact hl
  | release t p order _ hawake hperm ih => exact ih.tail (.release t p order hawake hperm)
  | releaseAll t order _ hawake hperm ih => exact ih.tail (.releaseAll t order hawake hperm)

theorem length_engaged (hdrain : l.Drain n l') (hl : l.Reachable) :
    l'.engaged.length + n ≤ l.engaged.length := by
  induction hdrain with
  | start => exact Nat.le_refl _
  | @release n l' t p order hdrain hawake hperm ih =>
    have hsound := (hdrain.reachable hl).sound
    have hle : (retry order (l'.release t p).2).2.engaged.length ≤ l'.engaged.length :=
      (List.subperm_of_subset (nodup_engaged _)
        fun u hu => engaged_release hsound hperm hu).length_le
    omega
  | @releaseAll n l' t order hdrain hawake hperm ih =>
    have hsound := (hdrain.reachable hl).sound
    split
    case isTrue hnone =>
      have hle : (retry order (l'.releaseAll t).2).2.engaged.length ≤ l'.engaged.length :=
        (List.subperm_of_subset (nodup_engaged _)
          fun u hu => engaged_releaseAll hsound hawake hperm hu).length_le
      omega
    case isFalse hheld =>
      have hlt := length_engaged_releaseAll hsound hawake hheld hperm
      omega

theorem trans {m : Nat} {l'' : LockTable} (hdrain : l.Drain m l') (hrest : l'.Drain n l'') :
    l.Drain (m + n) l'' := by
  induction hrest with
  | start => exact hdrain
  | release t p order _ hawake hperm ih => exact ih.release t p order hawake hperm
  | @releaseAll n l'' t order _ hawake hperm ih =>
    have hstep := ih.releaseAll t order hawake hperm
    split
    case isTrue hnone => rwa [if_pos hnone] at hstep
    case isFalse hheld => rwa [if_neg hheld, Nat.add_assoc] at hstep

end Drain

theorem exists_drain (hl : l.Reachable) : ∃ n l', l.Drain n l' ∧ l'.Quiet := by
  induction hlength : l.engaged.length using Nat.strong_induction_on generalizing l with
  | _ k ih =>
    subst hlength
    rcases hl.sound.quiet_or_exists_awake with hquiet | ⟨t, hawake, hheld⟩
    · exact ⟨0, l, .start, hquiet⟩
    · have hperm : (l.releaseAll t).1.Perm (l.releaseAll t).1 := .refl _
      have hfewer := length_engaged_releaseAll hl.sound hawake hheld hperm
      have hfirst := Drain.start.releaseAll t _ hawake hperm
      obtain ⟨n, l', hdrain, hquiet⟩ := ih _ hfewer (hfirst.reachable hl) rfl
      exact ⟨_, l', hfirst.trans hdrain, hquiet⟩

/-- From each sleeper the records lead to somebody awake who holds a lock.  When such a transaction
releases everything, fewer transactions sleep or hold locks, whatever the order in which the woken
requests are made.  So transactions that only release do so at most as often as there were such
transactions, they can go on until nobody sleeps and no page is locked, and then it is over. -/
theorem drains (hl : l.Reachable) :
    (∀ r ∈ l.sleepers,
      ∃ h, TransGen l.waits.Edge r.txn h ∧ l.isAsleep h = false ∧ l.heldPages h ≠ []) ∧
    (∀ t order, l.isAsleep t = false → l.heldPages t ≠ [] → order.Perm (l.releaseAll t).1 →
      (retry order (l.releaseAll t).2).2.engaged.length < l.engaged.length) ∧
    (∀ n l', l.Drain n l' → l'.engaged.length + n ≤ l.engaged.length) ∧
    (∀ n l', l.Drain n l' → l'.Quiet ∨ ∃ t, l'.isAsleep t = false ∧ l'.heldPages t ≠ []) ∧
    (∀ l', l.Drain l.engaged.length l' → l'.Quiet) ∧
    ∃ n ≤ l.engaged.length, ∃ l', l.Drain n l' ∧ l'.Quiet := by
  refine ⟨fun r hr => hl.sound.exists_awake hr, fun t order hawake hheld hperm => ?_,
    fun n l' hdrain => hdrain.length_engaged hl,
    fun n l' hdrain => (hdrain.reachable hl).sound.quiet_or_exists_awake,
    fun l' hdrain => ?_, ?_⟩
  · exact length_engaged_releaseAll hl.sound hawake hheld hperm
  · have hlength := hdrain.length_engaged hl
    exact quiet_iff.mpr (List.eq_nil_of_length_eq_zero (by omega))
  · obtain ⟨n, l', hdrain, hquiet⟩ := exists_drain hl
    have hlength := hdrain.length_engaged hl
    exact ⟨n, by omega, l', hdrain, hquiet⟩

open Overtaking in
theorem drains_joined :
    (joined.Reachable ∧ sleeper ∈ joined.sleepers ∧ joined.isAsleep ⟨1⟩ = false ∧
      joined.heldPages ⟨1⟩ ≠ []) ∧
    joined.engaged.length = 3 ∧
    (retry (joined.releaseAll ⟨1⟩).1 (joined.releaseAll ⟨1⟩).2).2.engaged.length < 3 ∧
    ∃ n ≤ 3, ∃ l', joined.Drain n l' ∧ l'.Quiet := by
  have hasleep : sleeper ∈ joined.sleepers := by decide
  have hawake : joined.isAsleep ⟨1⟩ = false := by decide
  have hheld : joined.heldPages ⟨1⟩ ≠ [] := by decide
  have hengaged : joined.engaged.length = 3 := by decide
  obtain ⟨-, hfewer, -, -, -, hend⟩ := drains reachable_joined
  rw [hengaged] at hend
  refine ⟨⟨reachable_joined, hasleep, hawake, hheld⟩, hengaged, ?_, hend⟩
  exact hengaged ▸ hfewer ⟨1⟩ _ hawake hheld (.refl _)

end PagedHeap.LockTable
