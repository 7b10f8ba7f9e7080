import PagedHeap.Lock.Table
import PagedHeap.Proofs.Lock.Grant
import PagedHeap.Proofs.WaitGraph.Acyclic

/-!
# The invariant of the lock table

Between a release and the retries that it brings about, some requests are neither asleep nor
answered.  The invariant speaks of such a moment: of a table together with the woken requests that
are still to be made again, in any order.
-/

namespace PagedHeap.LockTable

open WaitGraph

variable {l : LockTable} {r : LockRequest} {woken : List LockRequest} {t u h : TxnId}
  {p q : PageId} {pages : List PageId}

/-! ## Lookups -/

theorem grantOf_setGrant (l : LockTable) (p : PageId) (g : Grant) (q : PageId) :
    (l.setGrant p g).grantOf q = if p = q then g else l.grantOf q := by
  rw [grantOf, setGrant, SortedMap.get?_insert]
  split
  · rfl
  · rw [grantOf]

theorem mem_heldPages : p ∈ l.heldPages t ↔ p ∈ (l.held.get? t).getD ∅ :=
  SortedSet.mem_toList

theorem mem_heldPages_addHeld :
    q ∈ (l.addHeld t p).heldPages u ↔ t = u ∧ p = q ∨ q ∈ l.heldPages u := by
  rw [mem_heldPages, mem_heldPages, addHeld, SortedMap.get?_insert]
  by_cases htu : t = u
  · subst htu
    simp
  · simp [htu]

theorem mem_heldPages_removeHeld :
    q ∈ (l.removeHeld t p).heldPages u ↔ ¬ (t = u ∧ p = q) ∧ q ∈ l.heldPages u := by
  rw [mem_heldPages, mem_heldPages, removeHeld]
  split
  case isTrue hempty =>
    rw [SortedMap.get?_erase]
    by_cases htu : t = u
    · subst htu
      have hnot := SortedSet.isEmpty_iff.mp hempty q
      rw [SortedSet.mem_erase] at hnot
      simpa using hnot
    · simp [htu]
  case isFalse =>
    rw [SortedMap.get?_insert]
    by_cases htu : t = u
    · subst htu
      simp
    · simp [htu]

theorem grantOf_dropGrant (l : LockTable) (t : TxnId) (p q : PageId) :
    (l.dropGrant t p).grantOf q = if p = q then (l.grantOf q).release t else l.grantOf q := by
  rw [dropGrant, grantOf_setGrant]
  split
  case isTrue heq => rw [heq]
  case isFalse => rfl

/-- Dropping the locks of a transaction on some pages changes no other page, and nothing else. -/
theorem foldl_dropGrant (t : TxnId) (pages : List PageId) (l : LockTable) :
    let l' := pages.foldl (fun l page => l.dropGrant t page) l
    (∀ q, l'.grantOf q = if q ∈ pages then (l.grantOf q).release t else l.grantOf q) ∧
      l'.held = l.held ∧ l'.waits = l.waits ∧ l'.sleepers = l.sleepers := by
  induction pages generalizing l with
  | nil => simp
  | cons p rest ih =>
    obtain ⟨hgrant, hheld, hwaits, hsleepers⟩ := ih (l.dropGrant t p)
    refine ⟨fun q => ?_, hheld, hwaits, hsleepers⟩
    rw [List.foldl_cons, hgrant, grantOf_dropGrant]
    by_cases hpq : p = q
    · subst hpq
      simp [Grant.release_release]
    · simp [hpq, Ne.symm hpq]

/-- The table without the locks and the edges of a transaction, before anybody was woken. -/
def without (l : LockTable) (t : TxnId) : LockTable :=
  let dropped := (l.heldPages t).foldl (fun l page => l.dropGrant t page) l
  { dropped with held := dropped.held.erase t, waits := dropped.waits.removeTxn t }

theorem releaseAll_eq (l : LockTable) (t : TxnId) :
    l.releaseAll t = (l.without t).rouse (l.heldPages t) := rfl

theorem grantOf_without (l : LockTable) (t : TxnId) (q : PageId) :
    (l.without t).grantOf q =
      if q ∈ l.heldPages t then (l.grantOf q).release t else l.grantOf q :=
  (foldl_dropGrant t (l.heldPages t) l).1 q

theorem mem_heldPages_without : q ∈ (l.without t).heldPages u ↔ t ≠ u ∧ q ∈ l.heldPages u := by
  rw [mem_heldPages, mem_heldPages, without]
  simp only [(foldl_dropGrant t (l.heldPages t) l).2.1, SortedMap.get?_erase]
  by_cases htu : t = u <;> simp [htu]

theorem edge_without : (l.without t).waits.Edge u h ↔ u ≠ t ∧ h ≠ t ∧ l.waits.Edge u h := by
  have hwaits : (l.without t).waits = l.waits.removeTxn t :=
    congrArg (WaitGraph.removeTxn · t) (foldl_dropGrant t (l.heldPages t) l).2.2.1
  rw [hwaits]
  exact edge_removeTxn

theorem sleepers_without (l : LockTable) (t : TxnId) : (l.without t).sleepers = l.sleepers :=
  (foldl_dropGrant t (l.heldPages t) l).2.2.2

/-! ## What a request leaves -/

def grantTo (l : LockTable) (r : LockRequest) (g : Grant) : LockTable :=
  { (l.setGrant r.page g).addHeld r.txn r.page with waits := l.waits.clear r.txn }

def waitsWith (l : LockTable) (r : LockRequest) : WaitGraph :=
  l.waits.replace r.txn (waitSet r.txn ((l.grantOf r.page).blockers r.txn))

def refuse (l : LockTable) (r : LockRequest) : LockTable :=
  { l with waits := (l.waitsWith r).clear r.txn }

def putToSleep (l : LockTable) (r : LockRequest) : LockTable :=
  { l with waits := l.waitsWith r, sleepers := l.sleepers ++ [r] }

theorem grantOf_grantTo (l : LockTable) (r : LockRequest) (g : Grant) (q : PageId) :
    (l.grantTo r g).grantOf q = if r.page = q then g else l.grantOf q :=
  grantOf_setGrant l r.page g q

theorem mem_heldPages_grantTo {g : Grant} :
    q ∈ (l.grantTo r g).heldPages u ↔ r.txn = u ∧ r.page = q ∨ q ∈ l.heldPages u :=
  mem_heldPages_addHeld

theorem edge_waitsWith : (l.waitsWith r).Edge t h ↔
    if t = r.txn then h ∈ (l.grantOf r.page).holders ∧ h ≠ r.txn else l.waits.Edge t h := by
  rw [waitsWith, edge_replace, mem_waitSet, Grant.mem_blockers, and_assoc, and_self]

theorem edge_refuse : (l.refuse r).waits.Edge t h ↔ t ≠ r.txn ∧ l.waits.Edge t h := by
  rw [refuse, edge_clear, edge_waitsWith]
  refine and_congr_right fun hne => ?_
  rw [if_neg hne]

/-- The request would close a recorded circle. -/
def ClosesRecorded (l : LockTable) (r : LockRequest) : Prop :=
  l.waits.Closes r.txn ((l.grantOf r.page).blockers r.txn)

theorem request_eq_granted {g : Grant}
    (hgrant : (l.grantOf r.page).grant? r.txn r.mode = some g) :
    l.request r = (.granted, l.grantTo r g) := by
  rw [request, hgrant]
  rfl

theorem request_eq_deadlock (hac : l.waits.Acyclic)
    (hblocked : (l.grantOf r.page).grant? r.txn r.mode = none) (hcloses : l.ClosesRecorded r) :
    l.request r = (.deadlock, l.refuse r) := by
  rw [request, hblocked, setWaits_of_closes hac hcloses]
  rfl

theorem request_eq_asleep (hblocked : (l.grantOf r.page).grant? r.txn r.mode = none)
    (hopen : ¬ l.ClosesRecorded r) : l.request r = (.asleep, l.putToSleep r) := by
  rw [request, hblocked, setWaits_of_not_closes hopen]
  rfl

/-- A request is granted, refused because it would close a recorded circle, or put to sleep. -/
theorem request_cases (hac : l.waits.Acyclic) (r : LockRequest) :
    (∃ g, (l.grantOf r.page).grant? r.txn r.mode = some g ∧
      l.request r = (.granted, l.grantTo r g)) ∨
    ((l.grantOf r.page).grant? r.txn r.mode = none ∧ l.ClosesRecorded r ∧
      l.request r = (.deadlock, l.refuse r)) ∨
    ((l.grantOf r.page).grant? r.txn r.mode = none ∧ ¬ l.ClosesRecorded r ∧
      l.request r = (.asleep, l.putToSleep r)) := by
  cases hgrant : (l.grantOf r.page).grant? r.txn r.mode with
  | some g => exact Or.inl ⟨g, rfl, request_eq_granted hgrant⟩
  | none =>
    by_cases hcloses : l.ClosesRecorded r
    · exact Or.inr (Or.inl ⟨rfl, hcloses, request_eq_deadlock hac hgrant hcloses⟩)
    · exact Or.inr (Or.inr ⟨rfl, hcloses, request_eq_asleep hgrant hcloses⟩)

/-! ## The books

What the table says of its pages and what it says of its transactions agree, whoever makes requests
and releases, and in whatever order. -/

/-- No page is held against its mode, and every transaction has the pages that it holds listed. -/
structure Booked (l : LockTable) : Prop where
  wellFormed : ∀ p, (l.grantOf p).WellFormed
  held_iff : ∀ t p, p ∈ l.heldPages t ↔ t ∈ (l.grantOf p).holders

/-- The table after one lock was released, before anybody was woken. -/
def withoutPage (l : LockTable) (t : TxnId) (p : PageId) : LockTable :=
  (l.dropGrant t p).removeHeld t p

theorem grantOf_withoutPage (l : LockTable) (t : TxnId) (p q : PageId) :
    (l.withoutPage t p).grantOf q = if p = q then (l.grantOf q).release t else l.grantOf q :=
  grantOf_dropGrant l t p q

theorem release_eq (l : LockTable) (t : TxnId) (p : PageId) :
    l.release t p = if (l.grantOf p).holders.contains t then (l.withoutPage t p).rouse [p]
      else ([], l.withoutPage t p) := rfl

theorem booked_empty : Booked ∅ where
  wellFormed _ := Grant.wellFormed_vacant
  held_iff t p := by
    have hpages : p ∉ (∅ : LockTable).heldPages t := by
      rw [mem_heldPages]
      exact SortedSet.not_mem_empty p
    exact ⟨fun h => absurd h hpages, fun h => absurd h (SortedSet.not_mem_empty t)⟩

namespace Booked

theorem grantTo (hl : l.Booked) {g : Grant}
    (hgrant : (l.grantOf r.page).grant? r.txn r.mode = some g) : (l.grantTo r g).Booked where
  wellFormed q := by
    rw [grantOf_grantTo]
    split
    · exact (hl.wellFormed r.page).grant? hgrant
    · exact hl.wellFormed q
  held_iff u q := by
    rw [mem_heldPages_grantTo, grantOf_grantTo, hl.held_iff]
    split
    case isTrue heq =>
      subst heq
      rw [(Grant.grant?_eq_some hgrant).1, eq_comm (a := r.txn)]
      simp
    case isFalse hne => simp [hne]

theorem without (hl : l.Booked) (t : TxnId) : (l.without t).Booked where
  wellFormed q := by
    rw [grantOf_without]
    split
    · exact (hl.wellFormed q).release t
    · exact hl.wellFormed q
  held_iff u q := by
    rw [mem_heldPages_without, grantOf_without, hl.held_iff]
    split
    case isTrue => rw [Grant.mem_release, ne_comm]
    case isFalse hnot =>
      rw [hl.held_iff] at hnot
      refine ⟨And.right, fun hu => ⟨?_, hu⟩⟩
      rintro rfl
      exact hnot hu

theorem withoutPage (hl : l.Booked) (t : TxnId) (p : PageId) : (l.withoutPage t p).Booked where
  wellFormed q := by
    rw [grantOf_withoutPage]
    split
    · exact (hl.wellFormed q).release t
    · exact hl.wellFormed q
  held_iff u q := by
    have hpages : q ∈ (l.dropGrant t p).heldPages u ↔ q ∈ l.heldPages u := Iff.rfl
    rw [grantOf_withoutPage, LockTable.withoutPage, mem_heldPages_removeHeld, hpages, hl.held_iff]
    split
    case isTrue heq => simp [Grant.mem_release, heq, eq_comm]
    case isFalse hne => simp [hne]

end Booked

/-! ## The invariant -/

/-- What holds of a lock table while `woken` are still to be made again. -/
structure Sound (woken : List LockRequest) (l : LockTable) : Prop extends Booked l where
  single : ((woken ++ l.sleepers).map LockRequest.txn).Nodup
  blocked : ∀ r ∈ l.sleepers, (l.grantOf r.page).grant? r.txn r.mode = none
  /-- Only present holders are recorded, though not always all of them. -/
  recorded : ∀ r ∈ l.sleepers, ∀ h, l.waits.Edge r.txn h →
    h ∈ (l.grantOf r.page).holders ∧ h ≠ r.txn
  recorded_some : ∀ r ∈ l.sleepers, ∃ h, l.waits.Edge r.txn h
  idle : ∀ t, (∀ r ∈ woken ++ l.sleepers, r.txn ≠ t) → ∀ h, ¬ l.waits.Edge t h
  acyclic : l.waits.Acyclic

theorem sound_empty : Sound [] ∅ where
  toBooked := booked_empty
  single := List.nodup_nil
  blocked _ hr := absurd hr List.not_mem_nil
  recorded _ hr := absurd hr List.not_mem_nil
  recorded_some _ hr := absurd hr List.not_mem_nil
  idle _ _ h hedge := SortedSet.not_mem_empty h hedge
  acyclic := acyclic_empty

theorem isAsleep_eq_false : l.isAsleep t = false ↔ ∀ r ∈ l.sleepers, r.txn ≠ t := by
  simp [isAsleep]

namespace Sound

/-- A transaction that neither sleeps nor was woken may make a request. -/
theorem awake (hl : Sound woken l) (hawake : ∀ r' ∈ woken ++ l.sleepers, r'.txn ≠ r.txn) :
    Sound (r :: woken) l where
  toBooked := hl.toBooked
  single := by
    rw [List.cons_append, List.map_cons, List.nodup_cons]
    refine ⟨fun hmem => ?_, hl.single⟩
    obtain ⟨r', hr', heq⟩ := List.mem_map.mp hmem
    exact hawake r' hr' heq
  blocked := hl.blocked
  recorded := hl.recorded
  recorded_some := hl.recorded_some
  idle t hidle := hl.idle t fun r' hr' => hidle r' (List.mem_cons_of_mem _ hr')
  acyclic := hl.acyclic

theorem perm {order : List LockRequest} (hl : Sound woken l) (hperm : order.Perm woken) :
    Sound order l where
  toBooked := hl.toBooked
  single := ((hperm.append_right l.sleepers).map _).nodup_iff.mpr hl.single
  blocked := hl.blocked
  recorded := hl.recorded
  recorded_some := hl.recorded_some
  idle t hidle := hl.idle t fun r' hr' => hidle r' ((hperm.append_right _).mem_iff.mpr hr')
  acyclic := hl.acyclic

/-- It is the transaction that counts, not what it asks for. -/
theorem of_txn_eq {r' : LockRequest} (hl : Sound (r :: woken) l) (htxn : r'.txn = r.txn) :
    Sound (r' :: woken) l where
  toBooked := hl.toBooked
  single := by
    have hnodup := hl.single
    rw [List.cons_append, List.map_cons] at hnodup ⊢
    rwa [htxn]
  blocked := hl.blocked
  recorded := hl.recorded
  recorded_some := hl.recorded_some
  idle t hidle := hl.idle t fun r'' hr'' => by
    rw [List.cons_append] at hr''
    rcases List.mem_cons.mp hr'' with rfl | hr''
    · rw [← htxn]
      exact hidle r' List.mem_cons_self
    · exact hidle r'' (List.mem_cons_of_mem r' hr'')
  acyclic := hl.acyclic

theorem txn_ne (hl : Sound (r :: woken) l) : ∀ r' ∈ woken ++ l.sleepers, r'.txn ≠ r.txn := by
  intro r' hr' heq
  have hnodup := hl.single
  rw [List.cons_append, List.map_cons, List.nodup_cons] at hnodup
  exact hnodup.1 (List.mem_map.mpr ⟨r', hr', heq⟩)

/-! ## Requests -/

/-- A request that ends, one way or the other, takes its transaction's edges with it. -/
theorem settled (hl : Sound (r :: woken) l) {l' : LockTable} (hsleepers : l'.sleepers = l.sleepers)
    (hbooked : l'.Booked)
    (hedge : ∀ a b, l'.waits.Edge a b ↔ a ≠ r.txn ∧ l.waits.Edge a b)
    (hgrow : ∀ p t, t ∈ (l.grantOf p).holders → t ∈ (l'.grantOf p).holders)
    (hblocked : ∀ r' ∈ l.sleepers, (l'.grantOf r'.page).grant? r'.txn r'.mode = none) :
    Sound woken l' where
  toBooked := hbooked
  single := by
    rw [hsleepers]
    have hnodup := hl.single
    rw [List.cons_append, List.map_cons, List.nodup_cons] at hnodup
    exact hnodup.2
  blocked r' hr' := hblocked r' (hsleepers ▸ hr')
  recorded r' hr' h hrh := by
    rw [hsleepers] at hr'
    obtain ⟨hholds, hne⟩ := hl.recorded r' hr' h ((hedge _ _).mp hrh).2
    exact ⟨hgrow _ _ hholds, hne⟩
  recorded_some r' hr' := by
    rw [hsleepers] at hr'
    obtain ⟨h, hrh⟩ := hl.recorded_some r' hr'
    exact ⟨h, (hedge _ _).mpr ⟨hl.txn_ne r' (List.mem_append_right _ hr'), hrh⟩⟩
  idle t hidle h hth := by
    obtain ⟨hne, hold⟩ := (hedge _ _).mp hth
    refine hl.idle t (fun r' hr' => ?_) h hold
    rcases List.mem_cons.mp hr' with rfl | hr'
    · exact Ne.symm hne
    · exact hidle r' (by rwa [hsleepers])
  acyclic := hl.acyclic.of_edge_imp fun a b hab => ((hedge a b).mp hab).2

theorem grantTo (hl : Sound (r :: woken) l) {g : Grant}
    (hgrant : (l.grantOf r.page).grant? r.txn r.mode = some g) : Sound woken (l.grantTo r g) := by
  have hholders := (Grant.grant?_eq_some hgrant).1
  refine hl.settled rfl (hl.toBooked.grantTo hgrant) (fun a b => edge_clear) (fun q u hu => ?_)
    (fun r' hr' => ?_)
  · rw [grantOf_grantTo]
    split
    case isTrue heq =>
      subst heq
      exact (hholders u).mpr (Or.inr hu)
    case isFalse => exact hu
  · rw [grantOf_grantTo]
    split
    case isTrue heq =>
      have hne := hl.txn_ne r' (List.mem_append_right _ hr')
      have hblocked := hl.blocked r' hr'
      rw [← heq] at hblocked
      exact Grant.grant?_eq_none_of_grant? hblocked hne hgrant
    case isFalse => exact hl.blocked r' hr'

theorem refuse (hl : Sound (r :: woken) l) : Sound woken (l.refuse r) :=
  hl.settled rfl ⟨hl.wellFormed, hl.held_iff⟩ (fun _ _ => edge_refuse) (fun _ _ hu => hu) hl.blocked

theorem putToSleep (hl : Sound (r :: woken) l)
    (hblocked : (l.grantOf r.page).grant? r.txn r.mode = none) (hopen : ¬ l.ClosesRecorded r) :
    Sound woken (l.putToSleep r) := by
  have hperm : (woken ++ (l.sleepers ++ [r])).Perm ((r :: woken) ++ l.sleepers) := by
    rw [← List.append_assoc]
    exact List.perm_append_comm
  have hne : ∀ r' ∈ l.sleepers, r'.txn ≠ r.txn := fun r' hr' =>
    hl.txn_ne r' (List.mem_append_right _ hr')
  constructor
  case toBooked => exact ⟨hl.wellFormed, hl.held_iff⟩
  case single => exact (hperm.map _).nodup_iff.mpr hl.single
  case blocked =>
    intro r' hr'
    rcases List.mem_append.mp hr' with hr' | hr'
    · exact hl.blocked r' hr'
    · rw [List.mem_singleton.mp hr']
      exact hblocked
  case recorded =>
    intro r' hr' h hedge
    replace hedge := edge_waitsWith.mp hedge
    rcases List.mem_append.mp hr' with hr' | hr'
    · rw [if_neg (hne r' hr')] at hedge
      exact hl.recorded r' hr' h hedge
    · rw [List.mem_singleton.mp hr', if_pos rfl] at hedge
      rw [List.mem_singleton.mp hr']
      exact hedge
  case recorded_some =>
    intro r' hr'
    rcases List.mem_append.mp hr' with hr' | hr'
    · obtain ⟨h, hedge⟩ := hl.recorded_some r' hr'
      exact ⟨h, edge_waitsWith.mpr (by rwa [if_neg (hne r' hr')])⟩
    · obtain ⟨h, hmem⟩ := Grant.exists_blocker hblocked
      rw [List.mem_singleton.mp hr']
      refine ⟨h, edge_waitsWith.mpr ?_⟩
      rw [if_pos rfl]
      exact Grant.mem_blockers.mp hmem
  case idle =>
    intro t hidle h hedge
    have hall : ∀ r' ∈ (r :: woken) ++ l.sleepers, r'.txn ≠ t := fun r' hr' =>
      hidle r' (hperm.mem_iff.mpr hr')
    replace hedge := edge_waitsWith.mp hedge
    rw [if_neg (Ne.symm (hall r (by simp)))] at hedge
    exact hl.idle t hall h hedge
  case acyclic =>
    refine hl.acyclic.replace fun hcircle => hopen ?_
    exact transGen_replace_waitSet.mp hcircle

theorem request (hl : Sound (r :: woken) l) : Sound woken (l.request r).2 := by
  rcases request_cases hl.acyclic r with
    ⟨g, hgrant, hrequest⟩ | ⟨-, -, hrequest⟩ | ⟨hblocked, hopen, hrequest⟩
  · rw [hrequest]
    exact hl.grantTo hgrant
  · rw [hrequest]
    exact hl.refuse
  · rw [hrequest]
    exact hl.putToSleep hblocked hopen

theorem retry (hl : Sound woken l) : Sound [] (retry woken l).2 := by
  induction woken generalizing l with
  | nil => exact hl
  | cons r rest ih => exact ih hl.request

/-! ## Releases -/

theorem rouse {l' : LockTable} (hl : Sound woken l) (hsleepers : l'.sleepers = l.sleepers)
    (hbooked : l'.Booked)
    (hsame : ∀ p, p ∉ pages → l'.grantOf p = l.grantOf p)
    (hedge : ∀ a b, l'.waits.Edge a b → l.waits.Edge a b)
    (hkept : ∀ r ∈ l.sleepers, r.page ∉ pages → ∀ h, l.waits.Edge r.txn h →
      l'.waits.Edge r.txn h) :
    Sound (woken ++ (l'.rouse pages).1) (l'.rouse pages).2 := by
  have hrouse : l'.rouse pages =
      (l.sleepers.filter fun r => pages.contains r.page,
        { l' with sleepers := l.sleepers.filter fun r => !pages.contains r.page }) := by
    rw [LockTable.rouse, hsleepers, List.partition_eq_filter_filter]
    rfl
  rw [hrouse]
  have hperm : ((woken ++ l.sleepers.filter fun r => pages.contains r.page) ++
      l.sleepers.filter fun r => !pages.contains r.page).Perm (woken ++ l.sleepers) := by
    rw [List.append_assoc]
    exact (List.filter_append_perm _ _).append_left woken
  have hmem : ∀ r, r ∈ l.sleepers.filter (fun r => !pages.contains r.page) →
      r ∈ l.sleepers ∧ r.page ∉ pages := fun r hr => by simpa using hr
  constructor
  case toBooked => exact ⟨hbooked.wellFormed, hbooked.held_iff⟩
  case single => exact (hperm.map _).nodup_iff.mpr hl.single
  case blocked =>
    intro r hr
    obtain ⟨hr, hpage⟩ := hmem r hr
    exact (congrArg (fun g => g.grant? r.txn r.mode) (hsame _ hpage)).trans (hl.blocked r hr)
  case recorded =>
    intro r hr h hrh
    obtain ⟨hr, hpage⟩ := hmem r hr
    obtain ⟨hholds, hne⟩ := hl.recorded r hr h (hedge _ _ hrh)
    exact ⟨by rwa [← hsame _ hpage] at hholds, hne⟩
  case recorded_some =>
    intro r hr
    obtain ⟨hr, hpage⟩ := hmem r hr
    obtain ⟨h, hrh⟩ := hl.recorded_some r hr
    exact ⟨h, hkept r hr hpage h hrh⟩
  case idle =>
    intro t hidle h hth
    exact hl.idle t (fun r hr => hidle r (hperm.mem_iff.mpr hr)) h (hedge _ _ hth)
  case acyclic => exact hl.acyclic.of_edge_imp hedge

theorem releaseAll (hl : Sound woken l) (hawake : l.isAsleep t = false) :
    Sound (woken ++ (l.releaseAll t).1) (l.releaseAll t).2 := by
  rw [releaseAll_eq]
  refine hl.rouse (sleepers_without l t) (hl.toBooked.without t) (fun q hq => ?_)
    (fun a b hab => (edge_without.mp hab).2.2) (fun r hr hpage h hrh => ?_)
  · rw [grantOf_without, if_neg hq]
  · -- Whoever sleeps on a page that was not held waits for others than the transaction.
    have hth : h ≠ t := by
      rintro rfl
      exact hpage ((hl.held_iff _ _).mpr (hl.recorded r hr h hrh).1)
    exact edge_without.mpr ⟨isAsleep_eq_false.mp hawake r hr, hth, hrh⟩

theorem release (hl : Sound woken l) (t : TxnId) (p : PageId) :
    Sound (woken ++ (l.release t p).1) (l.release t p).2 := by
  have hbooked := hl.toBooked.withoutPage t p
  rw [release_eq]
  split
  case isTrue =>
    refine hl.rouse rfl hbooked (fun q hq => ?_) (fun _ _ hab => hab) fun _ _ _ _ hrh => hrh
    rw [grantOf_withoutPage, if_neg fun heq => hq (by simp [heq])]
  case isFalse hnot =>
    have hsame : ∀ q, (l.withoutPage t p).grantOf q = l.grantOf q := fun q => by
      rw [grantOf_withoutPage]
      split
      case isTrue heq =>
        subst heq
        exact (hl.wellFormed p).release_of_not_mem hnot
      case isFalse => rfl
    rw [List.append_nil]
    exact {
      toBooked := hbooked
      single := hl.single
      blocked := fun r hr => by
        rw [hsame]
        exact hl.blocked r hr
      recorded := fun r hr h hrh => by
        rw [hsame]
        exact hl.recorded r hr h hrh
      recorded_some := hl.recorded_some
      idle := hl.idle
      acyclic := hl.acyclic }

end Sound

theorem mem_rouse : r ∈ (l.rouse pages).1 ∨ r ∈ (l.rouse pages).2.sleepers ↔ r ∈ l.sleepers := by
  rw [rouse, List.partition_eq_filter_filter]
  by_cases hpage : r.page ∈ pages
  · simp [hpage]
  · simp [hpage]

/-- Whoever slept has been woken or sleeps on. -/
theorem mem_releaseAll (l : LockTable) (t : TxnId) :
    r ∈ (l.releaseAll t).1 ∨ r ∈ (l.releaseAll t).2.sleepers ↔ r ∈ l.sleepers := by
  rw [releaseAll_eq, mem_rouse, sleepers_without]

/-- Whoever waits after locks were released waited before. -/
theorem mem_of_released {freed sleepers : List LockRequest}
    (hmem : ∀ r, r ∈ freed ∨ r ∈ sleepers ↔ r ∈ l.sleepers)
    (hr : r ∈ (woken ++ freed) ++ sleepers) : r ∈ woken ++ l.sleepers := by
  rw [List.append_assoc, List.mem_append, List.mem_append, hmem] at hr
  exact List.mem_append.mpr hr

/-! ## What the others keep -/

theorem holders_request (hl : Sound (r :: woken) l) (hmem : u ∈ (l.grantOf q).holders) :
    u ∈ ((l.request r).2.grantOf q).holders := by
  rcases request_cases hl.acyclic r with
    ⟨g, hgrant, hrequest⟩ | ⟨-, -, hrequest⟩ | ⟨-, -, hrequest⟩
  · rw [hrequest, grantOf_grantTo]
    split
    case isTrue heq =>
      subst heq
      exact ((Grant.grant?_eq_some hgrant).1 u).mpr (Or.inr hmem)
    case isFalse => exact hmem
  · rw [hrequest]
    exact hmem
  · rw [hrequest]
    exact hmem

/-- Whoever has a page for itself keeps it so while others make requests. -/
theorem owns_request (hl : Sound (r :: woken) l) (howns : (l.grantOf q).Owns u) :
    ((l.request r).2.grantOf q).Owns u := by
  rcases request_cases hl.acyclic r with
    ⟨g, hgrant, hrequest⟩ | ⟨-, -, hrequest⟩ | ⟨-, -, hrequest⟩
  · rw [hrequest, grantOf_grantTo]
    split
    case isTrue heq =>
      subst heq
      exact howns.grant? hgrant
    case isFalse => exact howns
  · rw [hrequest]
    exact howns
  · rw [hrequest]
    exact howns

theorem grantOf_releaseAll (l : LockTable) (t : TxnId) (q : PageId) :
    (l.releaseAll t).2.grantOf q =
      if q ∈ l.heldPages t then (l.grantOf q).release t else l.grantOf q :=
  grantOf_without l t q

theorem holders_releaseAll (hne : u ≠ t) (hmem : u ∈ (l.grantOf q).holders) :
    u ∈ ((l.releaseAll t).2.grantOf q).holders := by
  rw [grantOf_releaseAll]
  split
  case isTrue => exact Grant.mem_release.mpr ⟨hne, hmem⟩
  case isFalse => exact hmem

theorem owns_releaseAll (hl : Sound woken l) (hne : u ≠ t) (howns : (l.grantOf q).Owns u) :
    ((l.releaseAll t).2.grantOf q).Owns u := by
  have hnot : q ∉ l.heldPages t := fun hq =>
    hne ((hl.wellFormed q).eq_of_owns howns ((hl.held_iff t q).mp hq)).symm
  rw [grantOf_releaseAll, if_neg hnot]
  exact howns

end PagedHeap.LockTable
