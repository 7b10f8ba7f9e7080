import PagedHeap.Proofs.Lock.Sound

/-!
# Circles of waiting transactions

What the table records of a sleeper are the holders it found when it last made its request.  A lock
that is granted while it sleeps adds a holder that nobody records, so the recorded graph has no
circle and the waiting transactions may form one all the same.
-/

namespace PagedHeap.LockTable

open Relation WaitGraph

variable {l l' : LockTable} {r : LockRequest} {t h : TxnId}

/-- A step of an awake transaction.  The requests that it wakes are made again in some order. -/
inductive Step (l : LockTable) : LockTable → Prop
  | acquire (r : LockRequest) (hawake : l.isAsleep r.txn = false) : Step l (l.request r).2
  | release (t : TxnId) (p : PageId) (order : List LockRequest) (hawake : l.isAsleep t = false)
      (hperm : order.Perm (l.release t p).1) : Step l (retry order (l.release t p).2).2
  | releaseAll (t : TxnId) (order : List LockRequest) (hawake : l.isAsleep t = false)
      (hperm : order.Perm (l.releaseAll t).1) : Step l (retry order (l.releaseAll t).2).2

def Reachable (l : LockTable) : Prop :=
  ReflTransGen Step ∅ l

/-- The program's steps are among these. -/
theorem Reachable.perform (hl : l.Reachable) (c : Command) : (l.perform c).2.2.Reachable := by
  unfold LockTable.perform
  split
  case isTrue => exact hl
  case isFalse hawake =>
    rw [Bool.not_eq_true] at hawake
    cases c with
    | acquire t p m => exact hl.tail (.acquire ⟨t, p, m⟩ hawake)
    | release t p => exact hl.tail (.release t p _ hawake (.refl _))
    | releaseAll t => exact hl.tail (.releaseAll t _ hawake (.refl _))

theorem Step.sound (hstep : Step l l') (hl : Sound [] l) : Sound [] l' := by
  cases hstep with
  | acquire r hawake => exact (hl.awake (isAsleep_eq_false.mp hawake)).request
  | release t p order _ hperm => exact ((hl.release t p).perm hperm).retry
  | releaseAll t order hawake hperm => exact ((hl.releaseAll hawake).perm hperm).retry

theorem Reachable.sound (hl : l.Reachable) : Sound [] l := by
  induction hl with
  | refl => exact sound_empty
  | tail _ hstep ih => exact hstep.sound ih

/-! ## Who waits for whom -/

/-- The first transaction sleeps on a page that the second one holds. -/
def WaitsFor (l : LockTable) (t h : TxnId) : Prop :=
  ∃ r ∈ l.sleepers, r.txn = t ∧ h ≠ t ∧ h ∈ (l.grantOf r.page).holders

/-- The second transaction came to hold the page after the first one fell asleep on it. -/
def Overlooked (l : LockTable) (t h : TxnId) : Prop :=
  l.WaitsFor t h ∧ ¬ l.waits.Edge t h

/-- Whoever sleeps behind the request's page's holders would sleep on the requester. -/
def ClosesCircle (l : LockTable) (r : LockRequest) : Prop :=
  ∃ h ∈ (l.grantOf r.page).blockers r.txn, ReflTransGen l.WaitsFor h r.txn

namespace Sound

theorem waitsFor_of_edge (hl : Sound [] l) (hedge : l.waits.Edge t h) : l.WaitsFor t h := by
  refine Classical.byContradiction fun hnot => hl.idle t (fun r hr htxn => hnot ?_) h hedge
  subst htxn
  obtain ⟨hholds, hne⟩ := hl.recorded r hr h hedge
  exact ⟨r, hr, rfl, hne, hholds⟩

/-- Only a shared lock can be granted past a sleeper, and only past one that wants the page for
itself. -/
theorem mode_of_overlooked (hl : Sound [] l) (hover : l.Overlooked t h) :
    ∃ r ∈ l.sleepers, r.txn = t ∧ r.mode = .exclusive ∧ (l.grantOf r.page).mode = .shared ∧
      h ∈ (l.grantOf r.page).holders := by
  obtain ⟨⟨r, hr, rfl, hne, hholds⟩, hunrecorded⟩ := hover
  have hshared : (l.grantOf r.page).mode = .shared := by
    cases hmode : (l.grantOf r.page).mode with
    | shared => rfl
    | exclusive =>
      -- The page has one holder, and somebody who holds it is recorded.
      obtain ⟨s, hs⟩ := hl.wellFormed r.page hmode
      obtain ⟨u, hedge⟩ := hl.recorded_some r hr
      have hu : u = s := (hs u).mp (hl.recorded r hr u hedge).1
      have hh : h = s := (hs h).mp hholds
      exact absurd (hh.trans hu.symm ▸ hedge) hunrecorded
  refine ⟨r, hr, rfl, ?_, hshared, hholds⟩
  cases hmode : r.mode with
  | exclusive => rfl
  | shared =>
    have hrefused := (Grant.grant?_eq_none.mp (hl.blocked r hr)).2
    rw [hmode, Grant.admits_shared.mpr (Or.inr hshared)] at hrefused
    exact absurd hrefused Bool.noConfusion

/-- A path of waiting transactions that records do not show passes through an overlooked holder. -/
theorem overlooked_of_path (hpath : ReflTransGen l.WaitsFor t h) :
    ReflTransGen l.waits.Edge t h ∨
      ∃ a b, l.Overlooked a b ∧ ReflTransGen l.WaitsFor t a ∧ ReflTransGen l.WaitsFor b h := by
  induction hpath with
  | refl => exact Or.inl .refl
  | @tail c d hpath hwaits ih =>
    rcases ih with hrecorded | ⟨a, b, hover, hto, hfrom⟩
    · by_cases hedge : l.waits.Edge c d
      · exact Or.inl (.tail hrecorded hedge)
      · exact Or.inr ⟨c, d, ⟨hwaits, hedge⟩, hpath, .refl⟩
    · exact Or.inr ⟨a, b, hover, hto, .tail hfrom hwaits⟩

theorem circle_iff (hl : Sound [] l) :
    (∃ t, TransGen l.WaitsFor t t) ↔ ∃ t h, l.Overlooked t h ∧ ReflTransGen l.WaitsFor h t := by
  constructor
  · rintro ⟨t, hcircle⟩
    obtain ⟨u, hwaits, hback⟩ := TransGen.head'_iff.mp hcircle
    rcases overlooked_of_path hback with hrecorded | ⟨a, b, hover, hto, hfrom⟩
    · by_cases hedge : l.waits.Edge t u
      · exact absurd (TransGen.head' hedge hrecorded) (hl.acyclic t)
      · exact ⟨t, u, ⟨hwaits, hedge⟩, hback⟩
    · exact ⟨a, b, hover, (hfrom.tail hwaits).trans hto⟩
  · rintro ⟨t, h, hover, hback⟩
    exact ⟨t, TransGen.head' hover.1 hback⟩

theorem closesCircle_of_recorded (hl : Sound [] l) (hcloses : l.ClosesRecorded r) :
    l.ClosesCircle r := by
  obtain ⟨h, hmem, -, hpath⟩ := hcloses
  exact ⟨h, hmem, ReflTransGen.mono (fun _ _ hedge => hl.waitsFor_of_edge hedge) _ _ hpath⟩

end Sound

/-- What the search for circles finds and what it misses.  The records never show a circle and show
only true waiting; the transactions wait in a circle exactly when one of them overlooks a holder
that waits for it, which takes a shared lock granted past an exclusive request; and a request that
has to wait is refused only if it closes a circle, and always if the circle passes no overlooked
holder. -/
theorem circle_iff_overlooked (hl : l.Reachable) :
    l.waits.Acyclic ∧
    (∀ t h, l.waits.Edge t h → l.WaitsFor t h) ∧
    ((∃ t, TransGen l.WaitsFor t t) ↔
      ∃ t h, l.Overlooked t h ∧ ReflTransGen l.WaitsFor h t) ∧
    (∀ t h, l.Overlooked t h → ∃ r ∈ l.sleepers, r.txn = t ∧ r.mode = .exclusive ∧
      (l.grantOf r.page).mode = .shared ∧ h ∈ (l.grantOf r.page).holders) ∧
    (∀ r, l.isAsleep r.txn = false → (l.grantOf r.page).grant? r.txn r.mode = none →
      ((l.request r).1 = .deadlock → l.ClosesCircle r) ∧
      (l.ClosesCircle r → (l.request r).1 = .deadlock ∨
        ∃ a b, l.Overlooked a b ∧
          (∃ h ∈ (l.grantOf r.page).blockers r.txn, ReflTransGen l.WaitsFor h a) ∧
          ReflTransGen l.WaitsFor b r.txn)) := by
  have hsound := hl.sound
  refine ⟨hsound.acyclic, fun _ _ hedge => hsound.waitsFor_of_edge hedge, hsound.circle_iff,
    fun _ _ hover => hsound.mode_of_overlooked hover, fun r _ hblocked => ⟨?_, ?_⟩⟩
  · intro hdeadlock
    by_cases hcloses : l.ClosesRecorded r
    · exact hsound.closesCircle_of_recorded hcloses
    · rw [request_eq_asleep hblocked hcloses] at hdeadlock
      exact absurd hdeadlock Verdict.noConfusion
  · rintro ⟨h, hmem, hpath⟩
    rcases Sound.overlooked_of_path hpath with hrecorded | ⟨a, b, hover, hto, hfrom⟩
    · have hcloses : l.ClosesRecorded r := ⟨h, hmem, (Grant.mem_blockers.mp hmem).2, hrecorded⟩
      rw [request_eq_deadlock hsound.acyclic hblocked hcloses]
      exact Or.inl rfl
    · exact Or.inr ⟨a, b, hover, ⟨h, hmem, hto⟩, hfrom⟩

/-! ## A circle that goes unnoticed

Transaction 1 reads page 0 and transaction 2 has page 1 for itself.  Then 2 asks for page 0 and
falls asleep, 3 joins the readers of page 0, and asks for page 1. -/

namespace Overtaking

def sleeper : LockRequest := ⟨⟨2⟩, ⟨⟨1⟩, 0⟩, .exclusive⟩

def newcomer : LockRequest := ⟨⟨3⟩, ⟨⟨1⟩, 0⟩, .shared⟩

def closing : LockRequest := ⟨⟨3⟩, ⟨⟨1⟩, 1⟩, .exclusive⟩

def start : LockTable :=
  (((∅ : LockTable).request ⟨⟨1⟩, ⟨⟨1⟩, 0⟩, .shared⟩).2.request ⟨⟨2⟩, ⟨⟨1⟩, 1⟩, .exclusive⟩).2

def joined : LockTable :=
  ((start.putToSleep sleeper).request newcomer).2

theorem edge_joined {a b : TxnId} (hedge : joined.waits.Edge a b) : a = ⟨2⟩ ∧ b = ⟨1⟩ := by
  have hlisting : joined.waits.listing = [(⟨2⟩, [⟨1⟩])] := by decide
  rw [← edge_listing, hlisting] at hedge
  by_cases ha : a = ⟨2⟩
  · subst ha
    simpa [Listing.Edge, Listing.next?] using hedge
  · simp [Listing.Edge, Listing.next?, List.lookup_cons, beq_false_of_ne ha] at hedge

theorem request_sleeper : start.request sleeper = (.asleep, start.putToSleep sleeper) := by
  apply request_eq_asleep (by decide)
  refine not_closes_of_enclosed [⟨1⟩] ?_ (by decide) (by decide)
  intro a ha b hedge
  rw [List.mem_singleton.mp ha] at hedge
  exact absurd hedge (SortedSet.not_mem_empty b)

theorem request_closing : joined.request closing = (.asleep, joined.putToSleep closing) := by
  apply request_eq_asleep (by decide)
  refine not_closes_of_enclosed [⟨1⟩, ⟨2⟩] ?_ (by decide) (by decide)
  intro a _ b hedge
  rw [(edge_joined hedge).2]
  exact List.mem_cons_self

theorem reachable_joined : joined.Reachable := by
  have hstart : start.Reachable :=
    (ReflTransGen.refl.tail (.acquire _ (by decide))).tail (.acquire _ (by decide))
  have hsleep : Step start (start.request sleeper).2 := .acquire _ (by decide)
  rw [request_sleeper] at hsleep
  exact (hstart.tail hsleep).tail (.acquire _ (by decide))

end Overtaking

open Overtaking

theorem circle_iff_overlooked_joined :
    joined.Reachable ∧ ((∃ t, TransGen joined.WaitsFor t t) ↔
      ∃ t h, joined.Overlooked t h ∧ ReflTransGen joined.WaitsFor h t) :=
  ⟨reachable_joined, (circle_iff_overlooked reachable_joined).2.2.1⟩

theorem circle_unnoticed :
    ∃ (l : LockTable) (r : LockRequest), l.Reachable ∧ l.isAsleep r.txn = false ∧
      l.ClosesCircle r ∧ (l.request r).1 = .asleep ∧
      ∃ t, TransGen (l.request r).2.WaitsFor t t := by
  have hwaits : joined.WaitsFor ⟨2⟩ ⟨3⟩ := ⟨sleeper, by decide, rfl, by decide, by decide⟩
  refine ⟨joined, closing, reachable_joined, by decide, ⟨⟨2⟩, by decide, .single hwaits⟩, ?_⟩
  rw [request_closing]
  have hto : (joined.putToSleep closing).WaitsFor ⟨2⟩ ⟨3⟩ :=
    ⟨sleeper, by decide, rfl, by decide, by decide⟩
  have hback : (joined.putToSleep closing).WaitsFor ⟨3⟩ ⟨2⟩ :=
    ⟨closing, by decide, rfl, by decide, by decide⟩
  exact ⟨rfl, ⟨2⟩, .tail (.single hto) hback⟩

end PagedHeap.LockTable
