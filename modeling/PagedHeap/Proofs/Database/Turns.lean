import PagedHeap.Proofs.Database.Calls

/-!
# The turn of a call

A call runs from one lock request to the next until it ends or falls asleep.  Meanwhile nobody loses
a lock, and no other call is touched.
-/

namespace PagedHeap

open Database

variable {t u : TxnId} {cmd : Option Command} {d d' d'' : Database} {id : PageId}
  {ops ops' : List RowOp} {c : Call} {woken : List LockRequest} {o : Option Outcome}

/-- How far the turn of a transaction has changed the database. -/
structure Advanced (t : TxnId) (d d' : Database) (ops : List RowOp) : Prop where
  holds : ∀ id u, d.holds id u → d'.holds id u
  owns : ∀ id u, d.owns id u → d'.owns id u
  calls : ∀ u, u ≠ t → d'.calls.get? u = d.calls.get? u
  cursors : CursorsKept d d'
  moves : Pool.Moves False d'.owns t d.pool ops d'.pool

namespace Advanced

theorem trans (h : Advanced t d d' ops) (h' : Advanced t d' d'' ops') :
    Advanced t d d'' (ops ++ ops') where
  holds id u hholds := h'.holds id u (h.holds id u hholds)
  owns id u howns := h'.owns id u (h.owns id u howns)
  calls u hne := (h'.calls u hne).trans (h.calls u hne)
  cursors := h.cursors.trans h'.cursors
  moves := (h.moves.mono h'.owns).trans h'.moves

theorem coherent (h : Advanced t d d' ops) (hp : Pool.Coherent d.owns d.pool) :
    Pool.Coherent d'.owns d'.pool :=
  h.moves.coherent (hp.mono h.owns)

theorem of_acted (h : Acted t d d' ops) : Advanced t d d' ops where
  holds id u hholds := by rwa [h.holds_eq]
  owns id u howns := by rwa [h.owns_eq]
  calls u _ := by rw [h.calls]
  cursors := h.cursors
  moves := by
    rw [h.owns_eq]
    exact h.moves

/-- A lock request changes the lock table only. -/
theorem of_request (hl : LockTable.Sound (c.request :: woken) d.locks) :
    Advanced t d { d with locks := (d.locks.request c.request).2 } [] where
  holds _ _ hholds := LockTable.holders_request hl hholds
  owns _ _ howns := LockTable.owns_request hl howns
  calls _ _ := rfl
  cursors := CursorsKept.refl d
  moves := .refl

end Advanced

/-- The operations that the end of a turn makes known. -/
def operationsAt (cmd : Option Command) : Option Outcome → List RowOp
  | some (.ok (.ok reply)) => operationsOf cmd reply
  | _ => []

/-- How the turn of a call for a command comes out. -/
structure Ran (t : TxnId) (cmd : Option Command) (woken : List LockRequest) (d : Database)
    (o : Option Outcome) (d' : Database) : Prop where
  sound : LockTable.Sound woken d'.locks
  advanced : Advanced t d d' (operationsAt cmd o)
  asleep : o = none → ∃ c, d'.locks.sleepers = d.locks.sleepers ++ [c.request] ∧ c.txn = t ∧
    d'.calls.get? t = some c ∧ c.WorksFor cmd d'
  ended : o ≠ none → d'.locks.sleepers = d.locks.sleepers
  fetched : ∀ page, o = some (.ok (.ok (.fetched page))) →
    d'.pool.cachedPage? page.id = some page ∧ d'.holds page.id t

namespace Ran

/-- A turn that goes on from a database where nobody new sleeps. -/
theorem after (h : Advanced t d d' []) (hsleepers : d'.locks.sleepers = d.locks.sleepers)
    (h' : Ran t cmd woken d' o d'') : Ran t cmd woken d o d'' where
  sound := h'.sound
  advanced := h.trans h'.advanced
  asleep hnone := by
    rw [← hsleepers]
    exact h'.asleep hnone
  ended hsome := (h'.ended hsome).trans hsleepers
  fetched := h'.fetched

/-- A turn that ends without a lock request. -/
theorem of_acted {outcome : Outcome} (hl : LockTable.Sound woken d.locks)
    (hacted : Acted t d d' (operationsAt cmd (some outcome)))
    (hfetched : ∀ page, outcome = .ok (.ok (.fetched page)) →
      d'.pool.cachedPage? page.id = some page ∧ d'.holds page.id t) :
    Ran t cmd woken d (some outcome) d' where
  sound := by rwa [hacted.locks]
  advanced := .of_acted hacted
  asleep hnone := nomatch hnone
  ended _ := by rw [hacted.locks]
  fetched page heq := hfetched page (Option.some.inj heq)

/-- A turn that is refused. -/
theorem refused {e : Error} (hl : LockTable.Sound woken d.locks) (hacted : Acted t d d' []) :
    Ran t cmd woken d (some (.ok (.error e))) d' :=
  .of_acted hl hacted fun _ heq => nomatch heq

/-- A turn that a fault ends. -/
theorem fault {fault : Fault} (hl : LockTable.Sound woken d.locks) (hacted : Acted t d d' []) :
    Ran t cmd woken d (some (.error fault)) d' :=
  .of_acted hl hacted fun _ heq => nomatch heq

theorem finished {reply : Reply} (hl : LockTable.Sound woken d.locks)
    (hacted : Acted t d d' (operationsOf cmd reply))
    (hfetched : ∀ page, reply = .fetched page →
      d'.pool.cachedPage? page.id = some page ∧ d'.holds page.id t) :
    Ran t cmd woken d (some (.ok (.ok reply))) d' :=
  .of_acted hl hacted fun page heq => hfetched page (Except.ok.inj (Except.ok.inj heq))

end Ran

theorem acted_updateCursor (d : Database) (t : TxnId) (id : CursorId) {f : Cursor → Cursor}
    (hf : ∀ cursor : Cursor, cursor.Alike (f cursor)) : Acted t d (d.updateCursor id f) [] := by
  rw [updateCursor]
  split
  case h_1 cursor hget => exact acted_setCursor hget (hf cursor)
  case h_2 => exact .refl t d

/-- A call that fails has made no operation known. -/
theorem ran_fail (hl : LockTable.Sound woken d.locks) (hp : Pool.Coherent d.owns d.pool)
    (cmd : Option Command) (e : Error) :
    Ran c.txn cmd woken d (some (.ok (d.fail c e).1)) (d.fail c e).2 := by
  have hletGo : Acted c.txn d (d.letGo (.operation c.txn)) [] := Acted.holders hp rfl rfl
  unfold Database.fail
  split
  case h_1 cursor harvest _ =>
    have hclose : Acted c.txn d
        ((d.letGo (.operation c.txn)).updateCursor cursor Cursor.close) [] :=
      hletGo.trans_nil (acted_updateCursor _ _ cursor fun _ => ⟨rfl, rfl⟩)
    cases hresult : harvested harvest (some e) with
    | error e' => exact .refused hl hclose
    | ok reply =>
      have hreply := ofScan_harvested hresult
      refine .finished hl ?_ fun page heq => absurd heq (hreply.ne_fetched page)
      rw [hreply.operationsOf_eq_nil]
      exact hclose
  case h_2 => exact .refused hl hletGo

/-- The call may go on with another lock request of its transaction. -/
theorem sound_next {next : Call} (hl : LockTable.Sound (c.request :: woken) d.locks)
    (hl' : LockTable.Sound woken d'.locks) (hsleepers : d'.locks.sleepers = d.locks.sleepers)
    (htxn : next.txn = c.txn) : LockTable.Sound (next.request :: woken) d'.locks := by
  refine hl'.awake fun r hr => ?_
  rw [hsleepers] at hr
  have hne : r.txn ≠ c.txn := hl.txn_ne r hr
  exact fun heq => hne (heq.trans htxn)

/-- A granted call holds its page, and has it for itself if it asked for that. -/
theorem granted_holds {g : Grant}
    (hgrant : (d.locks.grantOf c.request.page).grant? c.request.txn c.request.mode = some g) :
    holds { d with locks := d.locks.grantTo c.request g } c.page c.txn ∧
      (c.mode = .exclusive →
        owns { d with locks := d.locks.grantTo c.request g } c.page c.txn) := by
  have hgrantOf : (d.locks.grantTo c.request g).grantOf c.page = g := by
    rw [LockTable.grantOf_grantTo]
    exact if_pos rfl
  refine ⟨?_, fun hmode => ?_⟩
  · rw [holds, hgrantOf]
    exact Grant.mem_holders_of_grant? hgrant
  · rw [owns, hgrantOf]
    have hexclusive : c.request.mode = .exclusive := hmode
    rw [hexclusive] at hgrant
    exact Grant.owns_of_grant?_exclusive hgrant

/-- The granted call goes on with its errand. -/
theorem proceeds_granted {g : Grant} (hl : LockTable.Sound (c.request :: woken) d.locks)
    (hp : Pool.Coherent d.owns d.pool) (hworks : c.WorksFor cmd d)
    (hgrant : (d.locks.grantOf c.request.page).grant? c.request.txn c.request.mode = some g)
    (hrequest : d.locks.request c.request = (.granted, d.locks.grantTo c.request g)) :
    Proceeds c.txn cmd { d with locks := d.locks.grantTo c.request g }
      ((proceed c).on { d with locks := d.locks.grantTo c.request g }) := by
  have hadvanced : Advanced c.txn d { d with locks := d.locks.grantTo c.request g } [] := by
    have hasked := Advanced.of_request (t := c.txn) hl
    rwa [hrequest] at hasked
  obtain ⟨hholds, howns⟩ := granted_holds hgrant
  exact proceeds_proceed (hadvanced.coherent hp) (hworks.of_cursors_eq rfl) hholds howns

/-- A call asks for its lock, and what it wants next is left to the rest of the turn. -/
theorem ran_runBounded_succ {n : Nat} (hl : LockTable.Sound (c.request :: woken) d.locks)
    (hp : Pool.Coherent d.owns d.pool) (hworks : c.WorksFor cmd d)
    (hrest : ∀ (next : Call) (d : Database), next.txn = c.txn → LockTable.Sound woken d.locks →
      LockTable.Sound (next.request :: woken) d.locks → Pool.Coherent d.owns d.pool →
      next.WorksFor cmd d →
      Ran c.txn cmd woken d (runBounded n next d).1 (runBounded n next d).2) :
    Ran c.txn cmd woken d (runBounded (n + 1) c d).1 (runBounded (n + 1) c d).2 := by
  have hasked := Advanced.of_request (t := c.txn) hl
  have hsound := hl.request
  rw [runBounded]
  rcases LockTable.request_cases hl.acyclic c.request with
    ⟨g, hgrant, hrequest⟩ | ⟨-, -, hrequest⟩ | ⟨-, -, hrequest⟩
  case inl =>
    have hproceeds := proceeds_granted hl hp hworks hgrant hrequest
    rw [hrequest] at hasked hsound ⊢
    have hp₁ := hasked.coherent hp
    apply Ran.after hasked rfl
    simp only
    generalize (proceed c).on { d with locks := d.locks.grantTo c.request g } = x at hproceeds ⊢
    cases hproceeds with
    | failed hfails =>
      obtain @⟨e, d', hacted⟩ | @⟨fault, d', hacted, -⟩ := hfails
      · have hfailed : Ran c.txn cmd woken d' (some (.ok (d'.fail c e).1)) (d'.fail c e).2 :=
          ran_fail (hacted.locks ▸ hsound) (hacted.coherent hp₁) cmd e
        exact .after (.of_acted hacted) (by rw [hacted.locks]) hfailed
      · have hletGo : Acted c.txn d' (d'.letGo (.operation c.txn)) [] :=
          Acted.holders (hacted.coherent hp₁) rfl rfl
        exact .fault hsound (hacted.trans_nil hletGo)
    | finished hacted hfetched => exact .finished hsound hacted hfetched
    | @wants next d' hacted htxn hworks' =>
      have hsound' : LockTable.Sound woken d'.locks := hacted.locks ▸ hsound
      have hsleepers : d'.locks.sleepers = d.locks.sleepers := by
        rw [hacted.locks]
        rfl
      exact .after (.of_acted hacted) (by rw [hacted.locks])
        (hrest next d' htxn hsound' (sound_next hl hsound' hsleepers htxn)
          (hacted.coherent hp₁) hworks')
  case inr.inl =>
    rw [hrequest] at hasked hsound ⊢
    exact .after hasked rfl (ran_fail hsound (hasked.coherent hp) cmd _)
  case inr.inr =>
    rw [hrequest] at hasked hsound ⊢
    refine ⟨hsound, ⟨hasked.holds, hasked.owns, fun u hne => ?_, hasked.cursors, .refl⟩,
      fun _ => ⟨c, rfl, rfl, ?_, hworks.of_cursors_eq rfl⟩,
      fun hsome => absurd rfl hsome, fun _ heq => nomatch heq⟩
    · exact SortedMap.get?_insert_of_ne d.calls c (Ne.symm hne)
    · exact SortedMap.get?_insert_self _ _ _

theorem ran_runBounded (n : Nat) (hl : LockTable.Sound (c.request :: woken) d.locks)
    (hp : Pool.Coherent d.owns d.pool) (hworks : c.WorksFor cmd d) :
    Ran c.txn cmd woken d (runBounded (n + 1) c d).1 (runBounded (n + 1) c d).2 := by
  induction n generalizing c d with
  | zero =>
    refine ran_runBounded_succ hl hp hworks fun next d _ hsound _ hp _ => ?_
    exact .fault hsound (Acted.holders hp rfl rfl)
  | succ n ih =>
    refine ran_runBounded_succ hl hp hworks fun next d htxn _ hsound hp hworks => ?_
    exact htxn ▸ ih hsound hp hworks

theorem ran_run (hl : LockTable.Sound (c.request :: woken) d.locks)
    (hp : Pool.Coherent d.owns d.pool) (hworks : c.WorksFor cmd d) :
    Ran c.txn cmd woken d (run c d).1 (run c d).2 :=
  ran_runBounded _ hl hp hworks

/-- The turn of a transaction that neither sleeps nor was woken. -/
theorem ran_start {act : Act Database Progress} (hl : LockTable.Sound woken d.locks)
    (hp : Pool.Coherent d.owns d.pool)
    (hawake : ∀ r ∈ woken ++ d.locks.sleepers, r.txn ≠ t) (h : Proceeds t cmd d (act.on d)) :
    Ran t cmd woken d (start act d).1 (start act d).2 := by
  rw [start]
  generalize act.on d = x at h ⊢
  cases h with
  | failed hfails =>
    cases hfails with
    | refused hacted => exact .refused hl hacted
    | fault hacted _ => exact .fault hl hacted
  | finished hacted hfetched => exact .finished hl hacted hfetched
  | @wants c d' hacted htxn hworks =>
    subst htxn
    have hsound : LockTable.Sound (c.request :: woken) d'.locks := by
      rw [hacted.locks]
      exact hl.awake hawake
    exact .after (.of_acted hacted) (by rw [hacted.locks])
      (ran_run hsound (hacted.coherent hp) hworks)

/-! ## How calls begin -/

theorem proceeds_fetch (d : Database) (t : TxnId) (page : PageId) (mode : LockMode)
    (keep : Option HandleId) :
    Proceeds t cmd d
      ((return .wants ⟨t, page, mode, .fetch keep⟩ : Act Database Progress).on d) := by
  exact .wants (.refl t d) rfl (.of_fetch rfl)

theorem proceeds_beginInsert (hp : Pool.Coherent d.owns d.pool) (t : TxnId) (table : TableId)
    (row : Row) :
    Proceeds t (some (.insert t table row .tracked)) d
      ((beginInsert t table row .tracked).on d) := by
  simp only [beginInsert, if_true, Act.on_bind, Act.on_get, Act.on_ofResult]
  cases d.pool.disk.lookup table with
  | error e => exact .failed (.refused (.refl t d))
  | ok store =>
    simp only
    split
    case isTrue => exact .failed (.refused (.refl t d))
    case isFalse hsmall =>
      simp only [Act.on_bind, Act.on_get, Act.on_ofResult]
      cases d.pool.disk.count ⟨table, 0⟩ with
      | error e => exact .failed (.refused (.refl t d))
      | ok count => exact proceeds_insertFrom hp table 0 _ (Nat.le_of_not_lt hsmall) fun _ => rfl

theorem proceeds_beginDelete (d : Database) (t : TxnId) (table : TableId) (rid : RecordId) :
    Proceeds t (some (.delete t table rid .tracked)) d
      ((beginDelete t table rid .tracked).on d) := by
  simp only [beginDelete, if_true, Act.on_bind, Act.on_get, Act.on_ofResult]
  cases d.pool.disk.lookup table with
  | error e => exact .failed (.refused (.refl t d))
  | ok store =>
    simp only
    cases d.pool.disk.store? table with
    | none => exact .failed (.refused (.refl t d))
    | some store =>
      simp only [Act.on_bind, Act.on_ofResult]
      cases store.require rid.page with
      | error e => exact .failed (.refused (.refl t d))
      | ok u => exact .wants (.refl t d) rfl (.of_delete rfl rfl rfl)

end PagedHeap
