import PagedHeap.Proofs.Lock.Books
import PagedHeap.Proofs.WaitGraph.Removal

/-!
# No wake-up is lost

A transaction that releases everything drops its locks, wakes the sleepers of its pages, and is
taken out of the wait-for graph.  Until then whoever it woke may still be recorded as waiting for
it, but it waits for nobody itself, so these records are dead ends and it makes no difference when
they go.
-/

namespace PagedHeap.LockTable

open WaitGraph

variable {l : LockTable} {r : LockRequest} {woken : List LockRequest} {t : TxnId}

/-! ## Leaving in two steps -/

/-- Releases every lock of a transaction and leaves the wait-for graph as it is. -/
def dropLocks (l : LockTable) (t : TxnId) : List LockRequest × LockTable :=
  let dropped := (l.heldPages t).foldl (fun l page => l.dropGrant t page) l
  { dropped with held := dropped.held.erase t }.rouse (l.heldPages t)

/-- Takes a transaction out of the wait-for graph. -/
def forget (l : LockTable) (t : TxnId) : LockTable :=
  { l with waits := l.waits.removeTxn t }

theorem releaseAll_eq_forget (l : LockTable) (t : TxnId) :
    l.releaseAll t = ((l.dropLocks t).1, (l.dropLocks t).2.forget t) := rfl

theorem grantOf_dropLocks (l : LockTable) (t : TxnId) (q : PageId) :
    (l.dropLocks t).2.grantOf q =
      if q ∈ l.heldPages t then (l.grantOf q).release t else l.grantOf q :=
  grantOf_releaseAll l t q

theorem mem_dropLocks (l : LockTable) (t : TxnId) :
    r ∈ (l.dropLocks t).1 ∨ r ∈ (l.dropLocks t).2.sleepers ↔ r ∈ l.sleepers :=
  mem_releaseAll l t

theorem mem_release (l : LockTable) (t : TxnId) (p : PageId) :
    r ∈ (l.release t p).1 ∨ r ∈ (l.release t p).2.sleepers ↔ r ∈ l.sleepers := by
  rw [release_eq]
  split
  · exact mem_rouse
  · simp [withoutPage, removeHeld, dropGrant, setGrant]

/-- A page that is released loses the holder, and no other page changes. -/
theorem grantOf_releaseAll_cases (l : LockTable) (t : TxnId) (q : PageId) :
    (l.releaseAll t).2.grantOf q = l.grantOf q ∨
      (l.releaseAll t).2.grantOf q = (l.grantOf q).release t := by
  rw [grantOf_releaseAll]
  split
  · exact Or.inr rfl
  · exact Or.inl rfl

theorem grantOf_release_cases (l : LockTable) (t : TxnId) (p q : PageId) :
    (l.release t p).2.grantOf q = l.grantOf q ∨
      (l.release t p).2.grantOf q = (l.grantOf q).release t := by
  rw [grantOf_release]
  split
  · exact Or.inr rfl
  · exact Or.inl rfl

theorem Sound.dropLocks (hl : Sound woken l) (t : TxnId) :
    Sound (woken ++ (l.dropLocks t).1) (l.dropLocks t).2 := by
  have hdropped := foldl_dropGrant t (l.heldPages t) l
  have hbooked := hl.toBooked.without t
  rw [LockTable.dropLocks]
  refine hl.rouse hdropped.2.2.2 ⟨hbooked.wellFormed, hbooked.held_iff⟩ (fun q hq => ?_)
    (fun a b hab => ?_) (fun r _ _ h hrh => ?_)
  · exact (grantOf_without l t q).trans (if_neg hq)
  · rw [← hdropped.2.2.1]
    exact hab
  · rw [← hdropped.2.2.1] at hrh
    exact hrh

/-- The transaction has no locks and makes no request. -/
structure Departed (t : TxnId) (woken : List LockRequest) (l : LockTable) : Prop where
  sound : Sound woken l
  awake : ∀ r ∈ woken ++ l.sleepers, r.txn ≠ t
  lockless : ∀ p, t ∉ (l.grantOf p).holders

theorem departed_dropLocks (hl : Sound woken l) (hawake : ∀ r ∈ woken ++ l.sleepers, r.txn ≠ t) :
    Departed t (woken ++ (l.dropLocks t).1) (l.dropLocks t).2 where
  sound := hl.dropLocks t
  awake r hr := hawake r (mem_of_released (fun _ => mem_dropLocks l t) hr)
  lockless p ht := by
    rw [grantOf_dropLocks] at ht
    split at ht
    case isTrue => exact (Grant.mem_release.mp ht).1 rfl
    case isFalse hnot => exact hnot ((hl.held_iff t p).mpr ht)

/-! ## What a departed transaction leaves to the others -/

theorem retry_cons (r : LockRequest) (rest : List LockRequest) (l : LockTable) :
    retry (r :: rest) l = ((r, (l.request r).1) :: (retry rest (l.request r).2).1,
      (retry rest (l.request r).2).2) := rfl

theorem retry_append (early late : List LockRequest) (l : LockTable) :
    retry (early ++ late) l =
      ((retry early l).1 ++ (retry late (retry early l).2).1,
        (retry late (retry early l).2).2) := by
  induction early generalizing l with
  | nil => rfl
  | cons r rest ih =>
    rw [List.cons_append, retry_cons, retry_cons, ih]
    rfl

theorem forget_putToSleep (hne : r.txn ≠ t) (ht : t ∉ (l.grantOf r.page).holders) :
    (l.forget t).putToSleep r = (l.putToSleep r).forget t := by
  have hts : t ∉ waitSet r.txn ((l.grantOf r.page).blockers r.txn) := fun hmem =>
    ht (Grant.mem_blockers.mp (mem_waitSet.mp hmem).1).1
  have hwaits : (l.forget t).waitsWith r = (l.waitsWith r).removeTxn t :=
    removeTxn_replace hne hts
  rw [putToSleep, hwaits]
  rfl

theorem forget_refuse (hne : r.txn ≠ t) (ht : t ∉ (l.grantOf r.page).holders) :
    (l.forget t).refuse r = (l.refuse r).forget t := by
  have hwaits : (l.forget t).waitsWith r = (l.waitsWith r).removeTxn t :=
    congrArg LockTable.waits (forget_putToSleep hne ht)
  rw [refuse, hwaits, removeTxn_clear]
  rfl

namespace Departed

theorem idle (h : Departed t woken l) (u : TxnId) : ¬ l.waits.Edge t u :=
  h.sound.idle t h.awake u

theorem perm {order : List LockRequest} (h : Departed t woken l) (hperm : order.Perm woken) :
    Departed t order l where
  sound := h.sound.perm hperm
  awake r hr := h.awake r ((hperm.append_right _).mem_iff.mp hr)
  lockless := h.lockless

theorem forget (h : Departed t woken l) : Departed t woken (l.forget t) where
  sound := {
    toBooked := ⟨h.sound.wellFormed, h.sound.held_iff⟩
    single := h.sound.single
    blocked := h.sound.blocked
    recorded := fun r hr u hedge => h.sound.recorded r hr u (edge_removeTxn.mp hedge).2.2
    recorded_some := fun r hr => by
      obtain ⟨u, hedge⟩ := h.sound.recorded_some r hr
      have hne : u ≠ t := fun heq => h.lockless r.page (heq ▸ (h.sound.recorded r hr u hedge).1)
      exact ⟨u, edge_removeTxn.mpr ⟨h.awake r (List.mem_append_right _ hr), hne, hedge⟩⟩
    idle := fun u hidle v hedge => h.sound.idle u hidle v (edge_removeTxn.mp hedge).2.2
    acyclic := h.sound.acyclic.removeTxn t }
  awake := h.awake
  lockless := h.lockless

/-- It makes no difference to a request whether the transaction is still in the graph. -/
theorem request_forget (h : Departed t (r :: woken) l) :
    (l.forget t).request r = ((l.request r).1, (l.request r).2.forget t) := by
  have hne : r.txn ≠ t := h.awake r List.mem_cons_self
  have ht : t ∉ (l.grantOf r.page).holders := h.lockless r.page
  -- No circle leads through a transaction that waits for nobody.
  have hcloses : (l.forget t).ClosesRecorded r ↔ l.ClosesRecorded r :=
    closes_removeTxn h.idle hne fun hmem => ht (Grant.mem_blockers.mp hmem).1
  rcases request_cases h.sound.acyclic r with
    ⟨g, hgrant, hrequest⟩ | ⟨hblocked, hcircle, hrequest⟩ | ⟨hblocked, hopen, hrequest⟩
  · have hforget : (l.forget t).request r = (.granted, (l.forget t).grantTo r g) :=
      request_eq_granted hgrant
    rw [hrequest, hforget, grantTo, LockTable.forget, removeTxn_clear]
    rfl
  · have hforget : (l.forget t).request r = (.deadlock, (l.forget t).refuse r) :=
      request_eq_deadlock (h.sound.acyclic.removeTxn t) hblocked (hcloses.mpr hcircle)
    rw [hrequest, hforget, forget_refuse hne ht]
  · have hforget : (l.forget t).request r = (.asleep, (l.forget t).putToSleep r) :=
      request_eq_asleep hblocked fun hcircle => hopen (hcloses.mp hcircle)
    rw [hrequest, hforget, forget_putToSleep hne ht]

/-- A request of somebody else brings nothing back. -/
theorem request (h : Departed t (r :: woken) l) : Departed t woken (l.request r).2 := by
  have hne : r.txn ≠ t := h.awake r List.mem_cons_self
  have hothers : ∀ r' ∈ woken ++ l.sleepers, r'.txn ≠ t := fun r' hr' =>
    h.awake r' (List.mem_cons_of_mem _ hr')
  rcases request_cases h.sound.acyclic r with
    ⟨g, hgrant, hrequest⟩ | ⟨-, -, hrequest⟩ | ⟨-, -, hrequest⟩
  · refine ⟨h.sound.request, ?_, fun p hp => ?_⟩
    · rw [hrequest]
      exact hothers
    · rw [hrequest, grantOf_grantTo] at hp
      split at hp
      case isTrue =>
        rcases ((Grant.grant?_eq_some hgrant).1 t).mp hp with heq | hp
        · exact hne heq.symm
        · exact h.lockless _ hp
      case isFalse => exact h.lockless p hp
  · refine ⟨h.sound.request, ?_, ?_⟩
    · rw [hrequest]
      exact hothers
    · rw [hrequest]
      exact h.lockless
  · refine ⟨h.sound.request, fun r' hr' => ?_, ?_⟩
    · rw [hrequest, putToSleep, ← List.append_assoc, List.mem_append, List.mem_singleton] at hr'
      rcases hr' with hr' | rfl
      · exact hothers r' hr'
      · exact hne
    · rw [hrequest]
      exact h.lockless

theorem retry (h : Departed t woken l) : Departed t [] (retry woken l).2 := by
  induction woken generalizing l with
  | nil => exact h
  | cons r rest ih => exact ih h.request

theorem retry_forget {late : List LockRequest} (h : Departed t (woken ++ late) l) :
    LockTable.retry woken (l.forget t) =
      ((LockTable.retry woken l).1, (LockTable.retry woken l).2.forget t) := by
  induction woken generalizing l with
  | nil => rfl
  | cons r rest ih =>
    rw [retry_cons, retry_cons, h.request_forget, ih h.request]

end Departed

/-- Some of the woken requests are made before the transaction is taken out of the graph and the
others afterwards. -/
theorem retry_releaseAll {early late : List LockRequest} (hl : Sound [] l)
    (hawake : l.isAsleep t = false) (hperm : (early ++ late).Perm (l.dropLocks t).1) :
    retry (early ++ late) (l.releaseAll t).2 =
      let first := retry early (l.dropLocks t).2
      let second := retry late (first.2.forget t)
      (first.1 ++ second.1, second.2) := by
  have hdropped := departed_dropLocks hl (isAsleep_eq_false.mp hawake)
  have hdeparted : Departed t (early ++ late) (l.dropLocks t).2 := hdropped.perm hperm
  rw [releaseAll_eq_forget, retry_append, hdeparted.retry_forget]

theorem mem_waitsOf {h : TxnId} : h ∈ l.waitsOf t ↔ l.waits.Edge t h :=
  SortedSet.mem_toList

/-- Between two steps no sleeping request could be granted.  Sleepers wait for holders of their page
other than themselves and for at least one of them, and nobody else waits.  When a transaction
releases everything, the verdicts and the table are the same wherever among the retries it is
taken out of the graph. -/
theorem no_wakeup_lost (hl : l.Reachable) :
    (∀ r ∈ l.sleepers, (l.grantOf r.page).grant? r.txn r.mode = none) ∧
    (∀ r ∈ l.sleepers, l.waitsOf r.txn ≠ [] ∧
      ∀ h ∈ l.waitsOf r.txn, h ∈ (l.grantOf r.page).holders ∧ h ≠ r.txn) ∧
    (∀ t, l.isAsleep t = false → l.waitsOf t = []) ∧
    (∀ t early late, l.isAsleep t = false → (early ++ late).Perm (l.releaseAll t).1 →
      retry (early ++ late) (l.releaseAll t).2 =
        let first := retry early (l.dropLocks t).2
        let second := retry late (first.2.forget t)
        (first.1 ++ second.1, second.2)) := by
  have hsound := hl.sound
  refine ⟨hsound.blocked,
    fun r hr => ⟨?_, fun h hmem => hsound.recorded r hr h (mem_waitsOf.mp hmem)⟩,
    fun t hawake => ?_, fun t early late hawake hperm => retry_releaseAll hsound hawake hperm⟩
  · obtain ⟨h, hedge⟩ := hsound.recorded_some r hr
    exact List.ne_nil_of_mem (mem_waitsOf.mpr hedge)
  · refine List.eq_nil_iff_forall_not_mem.mpr fun h hmem => ?_
    exact hsound.idle t (isAsleep_eq_false.mp hawake) h (mem_waitsOf.mp hmem)

open Overtaking in
theorem no_wakeup_lost_joined :
    (joined.Reachable ∧ sleeper ∈ joined.sleepers ∧ joined.isAsleep ⟨1⟩ = false ∧
      ([sleeper] ++ []).Perm (joined.releaseAll ⟨1⟩).1) ∧
    (joined.grantOf sleeper.page).grant? sleeper.txn sleeper.mode = none ∧
    joined.waitsOf sleeper.txn ≠ [] ∧ joined.waitsOf ⟨1⟩ = [] ∧
    retry [sleeper] (joined.releaseAll ⟨1⟩).2 =
      ((retry [sleeper] (joined.dropLocks ⟨1⟩).2).1,
        (retry [sleeper] (joined.dropLocks ⟨1⟩).2).2.forget ⟨1⟩) := by
  have hasleep : sleeper ∈ joined.sleepers := by decide
  have hawake : joined.isAsleep ⟨1⟩ = false := by decide
  have hwoken : ([sleeper] ++ []).Perm (joined.releaseAll ⟨1⟩).1 := by decide
  obtain ⟨hblocked, hrecorded, hidle, hwhen⟩ := no_wakeup_lost reachable_joined
  exact ⟨⟨reachable_joined, hasleep, hawake, hwoken⟩, hblocked _ hasleep,
    (hrecorded _ hasleep).1, hidle _ hawake, hwhen _ _ _ hawake hwoken⟩

end PagedHeap.LockTable
