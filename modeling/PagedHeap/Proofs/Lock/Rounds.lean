import PagedHeap.Proofs.Lock.Waking

/-!
# What a refusal tells

While woken requests are still to be made again, some of them are recorded as waiting for a
transaction that has let go of the page since.  Such a record is outdated until the request is made
again, and nothing keeps the transaction from making a request of its own before.  The search then
follows the outdated record, and may find a circle of transactions of which one is held up by
nobody.
-/

namespace PagedHeap.LockTable

open Relation WaitGraph

/-! ## The middle of a run -/

/-- The tables that transactions come upon when they take turns in any order.  A transaction is one
thread of control: it is idle, or its request is asleep, or it was woken and its request is
`pending`, or it is `departing`, in the middle of releasing everything: it lets go of its locks, one
by one or at once, and is taken out of the graph at the end.  At any time an idle transaction may
make a request or release a lock, and a pending request may be made again. -/
inductive Underway : List LockRequest → List TxnId → LockTable → Prop
  | start : Underway [] [] ∅
  | acquire {pending departing l} (r : LockRequest) (hl : Underway pending departing l)
      (hidle : ∀ r' ∈ pending ++ l.sleepers, r'.txn ≠ r.txn) (hpresent : r.txn ∉ departing) :
      Underway pending departing (l.request r).2
  | reorder {pending departing l order} (hl : Underway pending departing l)
      (hperm : order.Perm pending) : Underway order departing l
  | again {r pending departing l} (hl : Underway (r :: pending) departing l) :
      Underway pending departing (l.request r).2
  | release {pending departing l} (t : TxnId) (p : PageId) (hl : Underway pending departing l)
      (hidle : ∀ r ∈ pending ++ l.sleepers, r.txn ≠ t) :
      Underway (pending ++ (l.release t p).1) departing (l.release t p).2
  | depart {pending departing l} (t : TxnId) (hl : Underway pending departing l)
      (hidle : ∀ r ∈ pending ++ l.sleepers, r.txn ≠ t) : Underway pending (t :: departing) l
  | dropLocks {pending departing l} (t : TxnId) (hl : Underway pending departing l)
      (ht : t ∈ departing) : Underway (pending ++ (l.dropLocks t).1) departing (l.dropLocks t).2
  | forget {pending departing l} (t : TxnId) (hl : Underway pending departing l)
      (ht : t ∈ departing) (hlockless : ∀ p, t ∉ (l.grantOf p).holders) :
      Underway pending (departing.filter (· ≠ t)) (l.forget t)

/-- A request is about to be made, fresh or again, and these others are pending. -/
inductive Asked (r : LockRequest) (pending : List LockRequest) (departing : List TxnId)
    (l : LockTable) : Prop
  | fresh (hl : Underway pending departing l)
      (hidle : ∀ r' ∈ pending ++ l.sleepers, r'.txn ≠ r.txn) (hpresent : r.txn ∉ departing) :
      Asked r pending departing l
  | again (hl : Underway (r :: pending) departing l) : Asked r pending departing l

variable {l : LockTable} {r : LockRequest} {pending order : List LockRequest}
  {departing : List TxnId} {t h : TxnId}

/-! ## Holders in the way -/

/-- The transaction holds the page that is asked for, in a mode that cannot be shared with the
request. -/
structure Blocks (l : LockTable) (r : LockRequest) (h : TxnId) : Prop where
  holds : h ∈ (l.grantOf r.page).holders
  ne : h ≠ r.txn
  conflicts : (l.grantOf r.page).mode.Conflicts r.mode

theorem Booked.blocks (hl : l.Booked) (hblocked : (l.grantOf r.page).grant? r.txn r.mode = none)
    (hholds : h ∈ (l.grantOf r.page).holders) (hne : h ≠ r.txn) : l.Blocks r h where
  holds := hholds
  ne := hne
  conflicts := by
    -- A page is held in one mode, so whoever is in the way, the mode says so of every holder.
    refine Classical.byContradiction fun hnot => ?_
    have hsome : ((l.grantOf r.page).grant? r.txn r.mode).isSome :=
      (Grant.grant?_isSome_iff (hl.wellFormed r.page)).mpr fun _ _ _ => hnot
    rw [hblocked] at hsome
    exact Bool.noConfusion hsome

/-- The first transaction sleeps, or was woken and has not made its request again, and the second
one holds the page in its way. -/
def HeldUp (pending : List LockRequest) (l : LockTable) (a b : TxnId) : Prop :=
  ∃ r ∈ pending ++ l.sleepers, r.txn = a ∧ l.Blocks r b

/-- The first transaction was woken and has not made its request again, and is recorded as waiting
for the second one, which is no longer in its way. -/
def Outdated (pending : List LockRequest) (l : LockTable) (a b : TxnId) : Prop :=
  ∃ r ∈ pending, r.txn = a ∧ l.waits.Edge a b ∧ ¬ l.Blocks r b

/-! ## What every table in the middle of a run keeps -/

/-- What holds of such a table besides the invariant of the lock table: whoever is departing makes
no request. -/
structure Orderly (pending : List LockRequest) (departing : List TxnId) (l : LockTable) : Prop
    extends Sound pending l where
  apart : ∀ t ∈ departing, ∀ r ∈ pending ++ l.sleepers, r.txn ≠ t

namespace Orderly

/-- A transaction that neither sleeps, was woken nor departs may make a request. -/
theorem awake (hl : Orderly pending departing l)
    (hidle : ∀ r' ∈ pending ++ l.sleepers, r'.txn ≠ r.txn) (hpresent : r.txn ∉ departing) :
    Orderly (r :: pending) departing l where
  toSound := hl.toSound.awake hidle
  apart t ht r' hr' := by
    rcases List.mem_cons.mp hr' with rfl | hr'
    · exact fun heq => hpresent (heq ▸ ht)
    · exact hl.apart t ht r' hr'

theorem request (hl : Orderly (r :: pending) departing l) :
    Orderly pending departing (l.request r).2 where
  toSound := hl.toSound.request
  apart t ht r' hr' := by
    refine hl.apart t ht r' ?_
    rcases request_cases hl.acyclic r with ⟨g, -, hrequest⟩ | ⟨-, -, hrequest⟩ | ⟨-, -, hrequest⟩
    · rw [hrequest] at hr'
      exact List.mem_cons_of_mem _ hr'
    · rw [hrequest] at hr'
      exact List.mem_cons_of_mem _ hr'
    · rw [hrequest, putToSleep, ← List.append_assoc, List.mem_append, List.mem_singleton] at hr'
      rcases hr' with hr' | rfl
      · exact List.mem_cons_of_mem _ hr'
      · exact List.mem_cons_self

theorem release (hl : Orderly pending departing l) (t : TxnId) (p : PageId) :
    Orderly (pending ++ (l.release t p).1) departing (l.release t p).2 where
  toSound := hl.toSound.release t p
  apart u hu r hr := hl.apart u hu r (mem_of_released (fun _ => mem_release l t p) hr)

theorem dropLocks (hl : Orderly pending departing l) (t : TxnId) :
    Orderly (pending ++ (l.dropLocks t).1) departing (l.dropLocks t).2 where
  toSound := hl.toSound.dropLocks t
  apart u hu r hr := hl.apart u hu r (mem_of_released (fun _ => mem_dropLocks l t) hr)

theorem forget (hl : Orderly pending departing l) (ht : t ∈ departing)
    (hlockless : ∀ p, t ∉ (l.grantOf p).holders) :
    Orderly pending (departing.filter (· ≠ t)) (l.forget t) where
  toSound := (Departed.forget ⟨hl.toSound, hl.apart t ht, hlockless⟩).sound
  apart u hu := hl.apart u (List.mem_filter.mp hu).1

end Orderly

theorem Underway.orderly (hl : Underway pending departing l) : Orderly pending departing l := by
  induction hl with
  | start => exact ⟨sound_empty, fun _ ht => absurd ht List.not_mem_nil⟩
  | acquire r _ hidle hpresent ih => exact (ih.awake hidle hpresent).request
  | reorder _ hperm ih =>
    exact ⟨ih.toSound.perm hperm,
      fun t ht r hr => ih.apart t ht r ((hperm.append_right _).mem_iff.mp hr)⟩
  | again _ ih => exact ih.request
  | release t p _ _ ih => exact ih.release t p
  | depart t _ hidle ih =>
    refine ⟨ih.toSound, fun u hu => ?_⟩
    rcases List.mem_cons.mp hu with rfl | hu
    · exact hidle
    · exact ih.apart u hu
  | dropLocks t _ _ ih => exact ih.dropLocks t
  | forget t _ ht hlockless ih => exact ih.forget ht hlockless

theorem Asked.orderly (hl : Asked r pending departing l) : Orderly (r :: pending) departing l := by
  cases hl with
  | fresh hl hidle hpresent => exact hl.orderly.awake hidle hpresent
  | again hl => exact hl.orderly

/-! ## Rounds of a run

A step of the table's own runs is one of these runs: what it wakes is made again, in the step's
order, before anything else happens. -/

theorem Underway.retry {late : List LockRequest} (hl : Underway (order ++ late) departing l) :
    Underway late departing (retry order l).2 := by
  induction order generalizing l with
  | nil => exact hl
  | cons r rest ih => exact ih hl.again

theorem Underway.settle (hl : Underway pending departing l) (hperm : order.Perm pending) :
    Underway [] departing (LockTable.retry order l).2 :=
  Underway.retry (hl.reorder (by rwa [List.append_nil]))

theorem Reachable.underway (hl : l.Reachable) : Underway [] [] l := by
  induction hl with
  | refl => exact .start
  | @tail l l' _ hstep ih =>
    cases hstep with
    | acquire r hawake =>
      exact ih.acquire r (isAsleep_eq_false.mp hawake) List.not_mem_nil
    | release t p order hawake hperm =>
      exact (ih.release t p (isAsleep_eq_false.mp hawake)).settle hperm
    | releaseAll t order hawake hperm =>
      have hidle := isAsleep_eq_false.mp hawake
      have hdropped := (ih.depart t hidle).dropLocks t List.mem_cons_self
      have hdeparted := departed_dropLocks ih.orderly.toSound hidle
      have hforgotten := hdropped.forget t List.mem_cons_self hdeparted.lockless
      have hnone : [t].filter (· ≠ t) = [] := by simp
      rw [hnone] at hforgotten
      exact hforgotten.settle hperm

/-! ## What a refusal means -/

/-- Whoever is recorded as waiting makes a request, sleeps, or was woken. -/
theorem Sound.exists_waiting (hl : Sound pending l) (hedge : l.waits.Edge t h) :
    ∃ r ∈ pending ++ l.sleepers, r.txn = t :=
  Classical.byContradiction fun hnone =>
    hl.idle t (fun r hr heq => hnone ⟨r, hr, heq⟩) h hedge

/-- A path to a transaction whose request is being made leads from one that is held up to the next,
or along an outdated record of a transaction that waits again. -/
theorem Sound.heldUp_or_outdated (hl : Sound (r :: pending) l)
    (hpath : ReflTransGen l.waits.Edge h r.txn) :
    ReflTransGen (HeldUp pending l) h r.txn ∨
      ∃ a b, ReflTransGen l.waits.Edge h a ∧ Outdated pending l a b ∧
        (∃ w ∈ (r :: pending) ++ l.sleepers, w.txn = b) ∧ ReflTransGen l.waits.Edge b r.txn := by
  induction hpath using ReflTransGen.head_induction_on with
  | refl => exact Or.inl .refl
  | @head a b hedge hpath ih =>
    by_cases ha : a = r.txn
    · rw [ha]
      exact Or.inl .refl
    obtain ⟨w, hw, rfl⟩ := hl.exists_waiting hedge
    have hw' : w ∈ pending ++ l.sleepers := by
      refine (List.mem_cons.mp hw).resolve_left ?_
      rintro rfl
      exact ha rfl
    by_cases hblocks : l.Blocks w b
    · rcases ih with hheld | ⟨c, d, hto, hrest⟩
      · exact Or.inl (.head ⟨w, hw', rfl, hblocks⟩ hheld)
      · exact Or.inr ⟨c, d, .head hedge hto, hrest⟩
    · -- Of a sleeper only holders in its way are recorded, so this one was woken.
      have hpending : w ∈ pending := by
        refine (List.mem_append.mp hw').resolve_right fun hasleep => hblocks ?_
        obtain ⟨hholds, hne⟩ := hl.recorded w hasleep b hedge
        exact hl.toBooked.blocks (hl.blocked w hasleep) hholds hne
      have hwaits : ∃ w ∈ (r :: pending) ++ l.sleepers, w.txn = b := by
        obtain rfl | ⟨c, hout, -⟩ := ReflTransGen.cases_head hpath
        · exact ⟨r, List.mem_cons_self, rfl⟩
        · exact hl.exists_waiting hout
      exact Or.inr ⟨w.txn, b, .refl, ⟨w, hpending, rfl, hedge, hblocks⟩, hwaits, hpath⟩

theorem waitsOf_refuse (l : LockTable) (r : LockRequest) (u : TxnId) :
    (l.refuse r).waitsOf u = if u = r.txn then [] else l.waitsOf u := by
  rw [waitsOf, WaitGraph.waitsOf, refuse, out_clear, waitsWith, out_replace]
  split
  · rfl
  · rfl

/-- A request that is refused, whether it is fresh or was woken, would wait in a circle: from a
holder of the page that is in its way, through transactions each held up by the next, back to
itself.  Or else the search has passed an outdated record, of a transaction that let go of a page
and asked for another one before the request that it woke was made again.  In any case the refusal
changes no lock and no sleeper, and no edges but those of the transaction, which is left with
none. -/
theorem circle_of_deadlock (hl : Asked r pending departing l)
    (hdeadlock : (l.request r).1 = .deadlock) :
    (∃ h, l.Blocks r h ∧ (ReflTransGen (HeldUp pending l) h r.txn ∨
      ∃ a b, ReflTransGen l.waits.Edge h a ∧ Outdated pending l a b ∧
        (∃ w ∈ (r :: pending) ++ l.sleepers, w.txn = b) ∧ ReflTransGen l.waits.Edge b r.txn)) ∧
    (l.request r).2.grants = l.grants ∧
    (l.request r).2.held = l.held ∧
    (l.request r).2.sleepers = l.sleepers ∧
    (∀ u, u ≠ r.txn → (l.request r).2.waitsOf u = l.waitsOf u) ∧
    (l.request r).2.waitsOf r.txn = [] := by
  have hsound := hl.orderly.toSound
  rcases request_cases hsound.acyclic r with
    ⟨g, -, hrequest⟩ | ⟨hblocked, hcloses, hrequest⟩ | ⟨-, -, hrequest⟩
  · rw [hrequest] at hdeadlock
    exact Verdict.noConfusion hdeadlock
  · obtain ⟨h, hmem, hne, hpath⟩ := hcloses
    have hholds := (Grant.mem_blockers.mp hmem).1
    refine ⟨⟨h, hsound.toBooked.blocks hblocked hholds hne, hsound.heldUp_or_outdated hpath⟩, ?_⟩
    rw [hrequest]
    refine ⟨rfl, rfl, rfl, fun u hu => ?_, ?_⟩
    · rw [waitsOf_refuse, if_neg hu]
    · rw [waitsOf_refuse, if_pos rfl]
  · rw [hrequest] at hdeadlock
    exact Verdict.noConfusion hdeadlock

theorem edge_dropLocks {a b : TxnId} : (l.dropLocks t).2.waits.Edge a b ↔ l.waits.Edge a b := by
  have hwaits : (l.dropLocks t).2.waits = l.waits :=
    (foldl_dropGrant t (l.heldPages t) l).2.2.1
  rw [hwaits]

open Overtaking in
/-- Transactions 2 and 3 wait for each other unnoticed.  When 1 departs, 2 is woken and the circle
comes to light. -/
theorem circle_of_deadlock_joined :
    (Asked sleeper [] [⟨1⟩] ((joined.putToSleep closing).dropLocks ⟨1⟩).2 ∧
      (((joined.putToSleep closing).dropLocks ⟨1⟩).2.request sleeper).1 = .deadlock) ∧
    ∃ h, ((joined.putToSleep closing).dropLocks ⟨1⟩).2.Blocks sleeper h ∧
      ReflTransGen (HeldUp [] ((joined.putToSleep closing).dropLocks ⟨1⟩).2) h sleeper.txn := by
  have hasleep : (joined.putToSleep closing).Reachable := by
    have hstep : Step joined (joined.request closing).2 := .acquire _ (by decide)
    rw [request_closing] at hstep
    exact reachable_joined.tail hstep
  have hdropped := (hasleep.underway.depart ⟨1⟩ (by decide)).dropLocks ⟨1⟩ List.mem_cons_self
  have hwoken : ((joined.putToSleep closing).dropLocks ⟨1⟩).1 = [sleeper] := by decide
  rw [hwoken] at hdropped
  have hedge : ((joined.putToSleep closing).dropLocks ⟨1⟩).2.waits.Edge ⟨3⟩ ⟨2⟩ := by
    refine edge_dropLocks.mpr (edge_waitsWith.mpr ?_)
    rw [if_pos (show (⟨3⟩ : TxnId) = closing.txn from rfl)]
    decide
  have hdeadlock :
      ((joined.putToSleep closing).dropLocks ⟨1⟩).2.request sleeper =
        (.deadlock, ((joined.putToSleep closing).dropLocks ⟨1⟩).2.refuse sleeper) := by
    refine request_eq_deadlock hdropped.orderly.acyclic (by decide) ?_
    exact ⟨⟨3⟩, by decide, by decide, .single hedge⟩
  refine ⟨⟨.again hdropped, congrArg Prod.fst hdeadlock⟩, ?_⟩
  obtain ⟨h, hblocks, hheld | ⟨a, b, -, ⟨w, hw, -⟩, -⟩⟩ :=
    (circle_of_deadlock (.again hdropped) (congrArg Prod.fst hdeadlock)).1
  · exact ⟨h, hblocks, hheld⟩
  · exact absurd hw List.not_mem_nil

/-! ## A circle that is not there

Transaction 1 has page 0 for itself and transaction 2 has page 1.  Then 2 asks for page 0 and falls
asleep, and 1 lets go of it and asks for page 1 before 2 has had its turn. -/

namespace Hasty

def sleeper : LockRequest := ⟨⟨2⟩, ⟨⟨1⟩, 0⟩, .exclusive⟩

def hasty : LockRequest := ⟨⟨1⟩, ⟨⟨1⟩, 1⟩, .exclusive⟩

def start : LockTable :=
  (((∅ : LockTable).request ⟨⟨1⟩, ⟨⟨1⟩, 0⟩, .exclusive⟩).2.request
    ⟨⟨2⟩, ⟨⟨1⟩, 1⟩, .exclusive⟩).2

def released : LockTable :=
  ((start.putToSleep sleeper).release ⟨1⟩ ⟨⟨1⟩, 0⟩).2

theorem request_sleeper : start.request sleeper = (.asleep, start.putToSleep sleeper) := by
  apply request_eq_asleep (by decide)
  refine not_closes_of_enclosed [⟨1⟩] ?_ (by decide) (by decide)
  intro a ha b hedge
  rw [List.mem_singleton.mp ha] at hedge
  exact absurd hedge (SortedSet.not_mem_empty b)

theorem underway_released : Underway [sleeper] [] released := by
  have hstart : Underway [] [] start :=
    (Underway.start.acquire _ (by decide) List.not_mem_nil).acquire _ (by decide) List.not_mem_nil
  have hasleep := hstart.acquire sleeper (by decide) List.not_mem_nil
  rw [request_sleeper] at hasleep
  exact hasleep.release ⟨1⟩ ⟨⟨1⟩, 0⟩ (by decide)

theorem request_hasty : released.request hasty = (.deadlock, released.refuse hasty) := by
  have hedge : released.waits.Edge ⟨2⟩ ⟨1⟩ := by
    refine edge_release.mpr (edge_waitsWith.mpr ?_)
    rw [if_pos (show (⟨2⟩ : TxnId) = sleeper.txn from rfl)]
    decide
  exact request_eq_deadlock underway_released.orderly.acyclic (by decide)
    ⟨⟨2⟩, by decide, by decide, .single hedge⟩

end Hasty

/-- A request is refused though nobody sleeps or was woken on a page that anybody holds, in whatever
mode, so no chain leads from the holder of its page back to it. -/
theorem deadlock_without_circle :
    ∃ (r : LockRequest) (pending : List LockRequest) (l : LockTable), Asked r pending [] l ∧
      (l.request r).1 = .deadlock ∧
      ¬ ∃ h ∈ (l.grantOf r.page).holders, h ≠ r.txn ∧
        ReflTransGen (fun a b => ∃ w ∈ pending ++ l.sleepers, w.txn = a ∧
          b ∈ (l.grantOf w.page).holders) h r.txn := by
  refine ⟨Hasty.hasty, [Hasty.sleeper], Hasty.released,
    .fresh Hasty.underway_released (by decide) List.not_mem_nil,
    congrArg Prod.fst Hasty.request_hasty, ?_⟩
  rintro ⟨h, -, hne, hpath⟩
  have hfree : ∀ w ∈ [Hasty.sleeper] ++ Hasty.released.sleepers,
      (Hasty.released.grantOf w.page).holders.isEmpty = true := by
    decide
  obtain heq | ⟨b, ⟨w, hw, -, hholds⟩, -⟩ := ReflTransGen.cases_head hpath
  · exact hne heq
  · exact SortedSet.isEmpty_iff.mp (hfree w hw) b hholds

end PagedHeap.LockTable
