import PagedHeap.Proofs.Database.Keeping

/-!
# Changed pages come back

Between changing a page and handing it back, a store may let go of the page and fetch others, the
changed one included.  The call may fall asleep over it, and others go on meanwhile.  Whatever
happens, the page that was changed comes back into the cache in place of any other copy, or there is
no room for it and nothing else is touched.
-/

namespace PagedHeap

open Database

/-- What the stores of a table do with a changed page before they hand it back. -/
def Disk.detours (d : Disk) (table : TableId) : List Detour :=
  (d.store? table).elim [] Store.detours

/-- In a turn of a run the call is about to ask for its lock, with so many requests left and others
woken; and the outcome of the turn. -/
inductive Asks (start : Moment) :
    List LockRequest → Nat → Call → Database → Option Outcome × Database → Prop
  | begun {occurrences : List Occurrence} {m : Moment} {command : Command} {t : TxnId}
      {act : Act Database Progress} {c : Call} {d : Database} (hrun : Run start occurrences m)
      (hpooled : PooledRun occurrences) (hfree : m.isBusy command = false)
      (hbegins : Begins m.db command t act) (hwants : act.on m.db = (.ok (.ok (.wants c)), d)) :
      Asks start m.woken (d.patience c) c d (Database.start act m.db)
  | resumed {occurrences : List Occurrence} {m : Moment} {c : Call}
      (hrun : Run start occurrences m) (hpooled : PooledRun occurrences)
      (hwoken : c.request ∈ m.woken) (hcall : m.db.calls.get? c.txn = some c) :
      Asks start (m.woken.erase c.request)
        (patience { m.db with calls := m.db.calls.erase c.txn } c) c
        { m.db with calls := m.db.calls.erase c.txn } (m.db.resumeOne c.request)
  | next {woken : List LockRequest} {n : Nat} {c c' : Call} {d d' : Database} {locks : LockTable}
      {turn : Option Outcome × Database} (h : Asks start woken (n + 1) c d turn)
      (hgranted : d.locks.request c.request = (.granted, locks))
      (hwants : (proceed c).on { d with locks } = (.ok (.ok (.wants c')), d')) :
      Asks start woken n c' d' turn

/-- The granted call changes the page in the frame, and has a reply for it. -/
inductive Changes (c : Call) (d : Database) (f : FrameId) : Reply → Database → Prop
  | inserted {row : Row} {ahead : Nat} {rid : RecordId} {d₁ d₂ : Database}
      (herrand : c.errand = .insert row ahead .tracked)
      (hfetch : (onPool (Pool.fetch c.page)).on d = (.ok (.ok f), d₁))
      (hplaced : (onPool (Pool.placeRow f c.txn row)).on d₁ = (.ok (.ok (some rid)), d₂)) :
      Changes c d f (.inserted rid) (d₂.hold (.operation c.txn) f)
  | deleted {slot : SlotId} {d₁ d₂ : Database} (herrand : c.errand = .delete slot .tracked)
      (hfetch : (onPool (Pool.fetch c.page)).on d = (.ok (.ok f), d₁))
      (hremoved : (onPool (Pool.removeRow f c.txn slot)).on d₁ = (.ok (.ok ()), d₂)) :
      Changes c d f .deleted (d₂.hold (.operation c.txn) f)

/-- A page that a transaction has changed. -/
structure ChangedPage where
  txn : TxnId
  frame : FrameId
  id : PageId
  image : Image
  /-- What the call is answered with when the page is back. -/
  reply : Reply

/-- The store that changed the page has so many detours ahead of it, in a turn of a run with so many
lock requests left; and the outcome of the turn. -/
inductive HandsBack (start : Moment) (x : ChangedPage) :
    List Detour → List LockRequest → Nat → Database → Option Outcome × Database → Prop
  | changed {woken : List LockRequest} {n : Nat} {c : Call} {d d' : Database} {locks : LockTable}
      {turn : Option Outcome × Database} (h : Asks start woken (n + 1) c d turn)
      (htxn : c.txn = x.txn) (hgranted : d.locks.request c.request = (.granted, locks))
      (hchanges : Changes c { d with locks } x.frame x.reply d')
      (hid : (d'.pool.page x.frame).id = x.id) (himage : (d'.pool.page x.frame).image = x.image) :
      HandsBack start x (d'.pool.disk.detours c.page.table) woken n d' turn
  | letGo {rest : List Detour} {woken : List LockRequest} {n : Nat} {d : Database}
      {turn : Option Outcome × Database} (h : HandsBack start x (.letGo :: rest) woken n d turn) :
      HandsBack start x rest woken n (d.withPool (d.pool.discard x.id)) turn
  | visited {page : PageId} {mode : LockMode} {rest : List Detour} {woken : List LockRequest}
      {n : Nat} {d d' : Database} {locks : LockTable} {g : FrameId}
      {turn : Option Outcome × Database}
      (h : HandsBack start x (.visit page mode :: rest) woken (n + 1) d turn)
      (hgranted : d.locks.request ⟨x.txn, page, mode⟩ = (.granted, locks))
      (hfetch : (onPool (Pool.fetch page)).on { d with locks } = (.ok (.ok g), d')) :
      HandsBack start x rest woken n d' turn
  | resumed {page : PageId} {mode : LockMode} {rest : List Detour} {woken : List LockRequest}
      {n : Nat} {d : Database} {turn : Option Outcome × Database}
      {occurrences : List Occurrence} {m : Moment}
      (h : HandsBack start x (.visit page mode :: rest) woken (n + 1) d turn)
      (hasleep : (d.locks.request ⟨x.txn, page, mode⟩).1 = .asleep)
      (hrun : Run ⟨woken, turn.2⟩ occurrences m) (hpooled : PooledRun occurrences)
      (hrests : ∀ outcome, .resumed x.txn outcome ∉ occurrences)
      (hwoken : ⟨x.txn, page, mode⟩ ∈ m.woken) :
      HandsBack start x (.visit page mode :: rest) (m.woken.erase ⟨x.txn, page, mode⟩)
        (patience { m.db with calls := m.db.calls.erase x.txn }
          ⟨x.txn, page, mode, .detour x.frame rest x.reply⟩)
        { m.db with calls := m.db.calls.erase x.txn } (m.db.resumeOne ⟨x.txn, page, mode⟩)

variable {start m : Moment} {x : ChangedPage} {t : TxnId} {c : Call} {d d' : Database}
  {f : FrameId} {reply : Reply} {rest : List Detour} {woken : List LockRequest} {n : Nat}
  {turn : Option Outcome × Database} {command : Command} {act : Act Database Progress}
  {locks : LockTable} {page : PageId} {mode : LockMode}

/-! ## How a turn goes on -/

/-- How a turn goes on that has been granted a lock and does not scan. -/
def Database.onward (n : Nat) (t : TxnId) :
    Checked (Except Error Progress) × Database → Option Outcome × Database
  | (.ok (.ok (.finished reply)), d) => (some (.ok (.ok reply)), d)
  | (.ok (.ok (.wants next)), d) => runBounded n next d
  | (.ok (.error e), d) => (some (.ok (.error e)), d.letGo (.operation t))
  | (.error fault, d) => (some (.error fault), d.letGo (.operation t))

theorem runBounded_granted (hscan : ∀ id, ¬ c.Scans id)
    (hgranted : d.locks.request c.request = (.granted, locks)) :
    runBounded (n + 1) c d = onward n c.txn ((proceed c).on { d with locks }) := by
  rw [runBounded, hgranted]
  simp only
  rcases (proceed c).on { d with locks } with ⟨fault | e | reply | next, d'⟩
  · rfl
  · simp only [fail_of_not_scans hscan, onward]
  · rfl
  · rfl

/-- A call that is answered was granted its lock. -/
theorem granted_of_answered (hscan : ∀ id, ¬ c.Scans id)
    (h : (runBounded (n + 1) c d).1 = some (.ok (.ok reply))) :
    ∃ locks, d.locks.request c.request = (.granted, locks) ∧
      (onward n c.txn ((proceed c).on { d with locks })).1 = some (.ok (.ok reply)) := by
  rcases hrequest : d.locks.request c.request with ⟨verdict, locks⟩
  cases verdict with
  | granted =>
    rw [runBounded_granted hscan hrequest] at h
    exact ⟨locks, rfl, h⟩
  | asleep =>
    rw [runBounded, hrequest] at h
    cases h
  | deadlock =>
    rw [runBounded, hrequest] at h
    simp only [fail_of_not_scans hscan] at h
    cases h

/-- And what it did first succeeded. -/
theorem succeeded_of_answered {α : Type} {first : Act Database α}
    {then' : α → Act Database Progress}
    (h : (onward n t ((first >>= then').on d)).1 = some (.ok (.ok reply))) :
    ∃ a d', first.on d = (.ok (.ok a), d') ∧
      (onward n t ((then' a).on d')).1 = some (.ok (.ok reply)) := by
  rw [Act.on_bind] at h
  rcases hfirst : first.on d with ⟨fault | e | a, d'⟩
  · rw [hfirst] at h
    cases h
  · rw [hfirst] at h
    cases h
  · rw [hfirst] at h
    exact ⟨a, d', rfl, h⟩

/-- So it goes on with the next request of the call, whether it scans or not. -/
theorem runBounded_wants {next : Call} (hgranted : d.locks.request c.request = (.granted, locks))
    (hwants : (proceed c).on { d with locks } = (.ok (.ok (.wants next)), d')) :
    runBounded (n + 1) c d = runBounded n next d' := by
  rw [runBounded, hgranted]
  simp only [hwants]

/-! ## Calls that ask -/

theorem Begins.awake (h : Begins m.db command t act) (hfree : m.isBusy command = false) :
    ∀ r ∈ m.woken ++ m.db.locks.sleepers, r.txn ≠ t := by
  cases h with
  | fetch _ page mode keep => exact LockTable.isAsleep_eq_false.mp hfree
  | insert _ table row => exact LockTable.isAsleep_eq_false.mp hfree
  | delete _ table rid => exact LockTable.isAsleep_eq_false.mp hfree
  | next id cursor hget => exact Moment.awake_of_rests hfree cursor hget
  | rest id cursor hget => exact Moment.awake_of_rests hfree cursor hget

theorem Begins.acts (h : Begins d command t act) : Acts t (Progress.Apt t) d act := by
  cases h with
  | fetch _ page mode keep => exact .of_pure (Progress.apt_wants (.of_fetch rfl))
  | insert _ table row => exact acts_beginInsert d t table row .tracked
  | delete _ table rid => exact acts_beginDelete d t table rid .tracked
  | next id cursor hget => exact acts_scanFrom hget (.refl cursor) .next
  | rest id cursor hget => exact acts_scanFrom hget (.refl cursor) (.rest [])

/-- The turn is a step of the run. -/
theorem Begins.step (h : Begins m.db command t act) (hfree : m.isBusy command = false) :
    ∃ answer, Step m (.command command answer) ⟨m.woken, (Database.start act m.db).2⟩ ∧
      command.IsPooled := by
  have hcall : m.db.carryOut command = m.db.call act → command.releases = false →
      ∃ answer, Step m (.command command answer) ⟨m.woken, (Database.start act m.db).2⟩ := by
    intro hcarry hplain
    have hstep := Step.plain command hfree hplain
    rw [hcarry, (answer_call m.db act).2] at hstep
    exact ⟨_, hstep⟩
  cases h with
  | fetch _ page mode keep => exact (hcall rfl rfl).imp fun _ h => ⟨h, trivial⟩
  | insert _ table row => exact (hcall rfl rfl).imp fun _ h => ⟨h, trivial⟩
  | delete _ table rid => exact (hcall rfl rfl).imp fun _ h => ⟨h, trivial⟩
  | next id cursor hget =>
    exact (hcall (by simp only [carryOut, scan, hget]) rfl).imp fun _ h => ⟨h, trivial⟩
  | rest id cursor hget =>
    exact (hcall (by simp only [carryOut, scan, hget]) rfl).imp fun _ h => ⟨h, trivial⟩

/-- What is known where a call asks. -/
structure Asking (woken : List LockRequest) (n : Nat) (c : Call) (d : Database)
    (turn : Option Outcome × Database) : Prop where
  poised : c.Poised woken d
  outcome : turn = runBounded n c d
  kempt : Moment.Kempt ⟨woken, turn.2⟩

theorem Asks.asking (h : Asks start woken n c d turn) (hstart : start.Kempt) :
    Asking woken n c d turn := by
  induction h with
  | @begun occurrences m command t act c d hrun hpooled hfree hbegins hwants =>
    obtain ⟨hm, -⟩ := hrun.honors hstart hpooled
    obtain ⟨answer, hstep, hcommand⟩ := hbegins.step hfree
    obtain ⟨hwithin, hgood⟩ := hbegins.acts
    rw [hwants] at hwithin hgood
    obtain ⟨rfl, hapt⟩ := hgood _ rfl c rfl
    refine ⟨⟨?_, hwithin.rooted hm.rooted, hapt⟩, ?_, ?_⟩
    · rw [hwithin.locks]
      exact hm.sound.awake (hbegins.awake hfree)
    · rw [Database.start, hwants]
      rfl
    · refine (hstep.honors hm fun command' answer' heq => ?_).kempt
      obtain ⟨rfl, -⟩ := Occurrence.command.inj heq
      exact hcommand
  | @resumed occurrences m c hrun hpooled hwoken hcall =>
    obtain ⟨hm, -⟩ := hrun.honors hstart hpooled
    obtain ⟨c', hrequest, hc', hpoised, hresume⟩ := hm.poised hwoken
    have htxn : c'.txn = c.txn := congrArg LockRequest.txn hrequest
    obtain rfl : c' = c := Option.some.inj (hc'.call.symm.trans (htxn ▸ hcall))
    exact ⟨hpoised, hresume, (hm.honors_resume hwoken).kempt⟩
  | @next woken n c c' d d' locks turn _ hgranted hwants ih =>
    obtain ⟨hpoised, rfl, hkempt⟩ := ih
    obtain ⟨hadmitted, -⟩ := hpoised.admitted hgranted
    obtain ⟨hwithin, hgood⟩ := acts_proceed hadmitted.rooted hadmitted.apt hadmitted.owns
    rw [hwants] at hwithin hgood
    exact ⟨hadmitted.goesOn hwithin (hgood _ rfl), runBounded_wants hgranted hwants, hkempt⟩

/-! ## The page on its way back -/

/-- What is known of a changed page that is not back yet. -/
structure Holding (x : ChangedPage) (rest : List Detour) (woken : List LockRequest) (n : Nat)
    (d : Database) (turn : Option Outcome × Database) : Prop where
  sound : ∀ r : LockRequest, r.txn = x.txn → LockTable.Sound (r :: woken) d.locks
  rooted : d.pool.Rooted
  hand : d.InHand x.txn x.frame
  page_id : (d.pool.page x.frame).id = x.id
  image : (d.pool.page x.frame).image = x.image
  outcome : turn = onward n x.txn ((handBack x.txn x.frame x.reply rest).on d)
  kempt : Moment.Kempt ⟨woken, turn.2⟩

/-- The call that fetches the next page for the store. -/
def ChangedPage.visiting (x : ChangedPage) (page : PageId) (mode : LockMode)
    (rest : List Detour) : Call :=
  ⟨x.txn, page, mode, .detour x.frame rest x.reply⟩

theorem onward_visit : onward n x.txn
    ((handBack x.txn x.frame x.reply (.visit page mode :: rest)).on d) =
      runBounded n (x.visiting page mode rest) d := rfl

/-- The page that a call has fetched to change it is in its hands. -/
theorem inHand_fetched (hd : d.pool.Rooted) (howns : d.owns c.page c.txn)
    (hfetch : (onPool (Pool.fetch c.page)).on d = (.ok (.ok f), d')) :
    ActedFor c.txn d d' ∧ d'.InHand c.txn f ∧ d'.pool.buffer.cached? c.page = some f := by
  obtain ⟨hwithin, hcached⟩ := acts_fetch (t := c.txn) hd c.page
  rw [hfetch] at hwithin hcached
  have hf := hcached f rfl
  exact ⟨hwithin, .of_cached (hwithin.rooted hd) hf (hwithin.owns_eq ▸ howns), hf⟩

/-- It is changed in its frame, and the frame is held. -/
theorem inHand_changed {α : Type} {change : Act Pool α} {a : α} (hd : d.pool.Rooted)
    (howns : d.owns c.page c.txn)
    (hpool : Pool.Respects (d.owns · c.txn) d.pool (change.on d.pool).2)
    (hcached : (change.on d.pool).2.buffer.cached? c.page = some f)
    (hchange : (onPool change).on d = (.ok (.ok a), d')) :
    ActedFor c.txn d (d'.hold (.operation c.txn) f) ∧
      (d'.hold (.operation c.txn) f).InHand c.txn f := by
  obtain ⟨hwithin, hkept⟩ := acts_onFrame hpool hcached
  rw [hchange] at hwithin hkept
  have hd' := hwithin.rooted hd
  have hhand : d'.InHand c.txn f := .of_cached hd' (hkept a rfl) (hwithin.owns_eq ▸ howns)
  exact ⟨hwithin.trans (.holders d' _), (hhand.onPool hd' (Pool.respects_holders d'.pool _)).1⟩

theorem on_afterChange_detours (t : TxnId) (table : TableId) :
    (afterChange t table f reply).on d =
      (handBack t f reply ((d.hold (.operation t) f).pool.disk.detours table)).on
        (d.hold (.operation t) f) := by
  simp only [afterChange, Act.on_bind, Act.on_modify, Act.on_get, Disk.detours]
  cases (d.hold (.operation t) f).pool.disk.store? table with
  | none => rfl
  | some store => rfl

/-- The changed page is in the hands of its call, which goes on with the detours of its store. -/
theorem Changes.inHand (h : Changes c d f reply d') (hc : c.Admitted woken d) :
    ActedFor c.txn d d' ∧ d'.InHand c.txn f ∧ (∀ id, ¬ c.Scans id) ∧
      (proceed c).on d = (handBack c.txn f reply (d'.pool.disk.detours c.page.table)).on d' := by
  cases h with
  | @inserted row ahead rid d₁ d₂ herrand hfetch hplaced =>
    have howns := hc.owns (hc.apt.insert row ahead .tracked herrand)
    obtain ⟨hwithin, hhand, hf⟩ := inHand_fetched hc.rooted howns hfetch
    obtain ⟨hchanged, hhand'⟩ := inHand_changed (hwithin.rooted hc.rooted) (hwithin.owns_eq ▸ howns)
      (Pool.respects_placeRow hhand.safe.present hhand.owned c.txn row) hf hplaced
    refine ⟨hwithin.trans hchanged, hhand', fun id hscan => ?_, ?_⟩
    · obtain ⟨harvest, hscan⟩ := hscan
      cases herrand.symm.trans hscan
    · rw [proceed, herrand]
      simp only [insertHere, Act.on_bind, hfetch, hplaced]
      exact on_afterChange_detours c.txn c.page.table
  | @deleted slot d₁ d₂ herrand hfetch hremoved =>
    have howns := hc.owns (hc.apt.delete slot .tracked herrand)
    obtain ⟨hwithin, hhand, hf⟩ := inHand_fetched hc.rooted howns hfetch
    obtain ⟨hchanged, hhand'⟩ := inHand_changed (hwithin.rooted hc.rooted) (hwithin.owns_eq ▸ howns)
      (Pool.respects_removeRow hhand.safe.present hhand.owned c.txn slot) hf hremoved
    refine ⟨hwithin.trans hchanged, hhand', fun id hscan => ?_, ?_⟩
    · obtain ⟨harvest, hscan⟩ := hscan
      cases herrand.symm.trans hscan
    · rw [proceed, herrand]
      simp only [deleteHere, Act.on_bind, hfetch, hremoved]
      exact on_afterChange_detours c.txn c.page.table

namespace Holding

theorem poised (h : Holding x (.visit page mode :: rest) woken n d turn) :
    (x.visiting page mode rest).Poised woken d :=
  ⟨h.sound _ rfl, h.rooted, .of_detour rfl h.hand⟩

/-- The page is dropped from the cache, but stays in hand. -/
theorem letGo (h : Holding x (.letGo :: rest) woken n d turn) :
    Holding x rest woken n (d.withPool (d.pool.discard x.id)) turn := by
  obtain ⟨hhand, hsame⟩ := h.hand.onPool h.rooted (Pool.respects_discard d.pool x.id)
  have hpool : Pool.Respects (fun _ => False) d.pool (d.pool.discard x.id) :=
    Pool.respects_discard d.pool x.id
  refine ⟨h.sound, hpool.rooted h.rooted, hhand, hsame.id.trans h.page_id,
    hsame.image.trans h.image, ?_, h.kempt⟩
  rw [h.outcome, handBack, Act.on_modify_bind, h.page_id]

/-- Another page is fetched meanwhile. -/
theorem visited {g : FrameId} (h : Holding x (.visit page mode :: rest) woken (n + 1) d turn)
    (hgranted : d.locks.request ⟨x.txn, page, mode⟩ = (.granted, locks))
    (hfetch : (onPool (Pool.fetch page)).on { d with locks } = (.ok (.ok g), d')) :
    Holding x rest woken n d' turn := by
  obtain ⟨hadmitted, -⟩ := h.poised.admitted hgranted
  have hpool : Pool.Respects (fun _ => False) d.pool ((Pool.fetch page).on d.pool).2 :=
    Pool.respects_fetch page d.pool
  obtain ⟨hwithin, -⟩ := acts_fetch (t := x.txn) hadmitted.rooted page
  have hhand₁ : InHand { d with locks } x.txn x.frame := hadmitted.apt.detour _ _ _ rfl
  obtain ⟨hhand, hsame⟩ := hhand₁.onPool hadmitted.rooted hpool
  have hd' : d' = withPool { d with locks } ((Pool.fetch page).on d.pool).2 :=
    (Prod.mk.inj (hfetch.symm.trans (on_onPool _ _))).2
  rw [hfetch] at hwithin
  refine ⟨fun r htxn => ?_, hwithin.rooted hadmitted.rooted, hd' ▸ hhand,
    hd' ▸ hsame.id.trans h.page_id, hd' ▸ hsame.image.trans h.image, ?_, h.kempt⟩
  · rw [hwithin.locks]
    exact hadmitted.sound.awake fun r' hr' => htxn ▸ hadmitted.awake r' hr'
  · rw [h.outcome, onward_visit, runBounded_granted (fun id ⟨_, hscan⟩ => by cases hscan) hgranted]
    simp only [proceed, ChangedPage.visiting, Act.on_bind, hfetch]

/-- The call falls asleep with the page in hand, and has it in hand when it goes on. -/
theorem resumed {occurrences : List Occurrence}
    (h : Holding x (.visit page mode :: rest) woken (n + 1) d turn)
    (hasleep : (d.locks.request ⟨x.txn, page, mode⟩).1 = .asleep)
    (hrun : Run ⟨woken, turn.2⟩ occurrences m) (hpooled : PooledRun occurrences)
    (hrests : ∀ outcome, .resumed x.txn outcome ∉ occurrences)
    (hwoken : ⟨x.txn, page, mode⟩ ∈ m.woken) :
    Holding x (.visit page mode :: rest) (m.woken.erase ⟨x.txn, page, mode⟩)
      (patience { m.db with calls := m.db.calls.erase x.txn }
        ⟨x.txn, page, mode, .detour x.frame rest x.reply⟩)
      { m.db with calls := m.db.calls.erase x.txn } (m.db.resumeOne ⟨x.txn, page, mode⟩) := by
  have hturn : turn.2 = { d with
      locks := d.locks.putToSleep ⟨x.txn, page, mode⟩
      calls := d.calls.insert x.txn (x.visiting page mode rest) } := by
    rw [h.outcome, onward_visit, runBounded]
    rcases LockTable.request_cases h.poised.sound.acyclic (x.visiting page mode rest).request with
      ⟨g, -, hrequest⟩ | ⟨-, -, hrequest⟩ | ⟨-, -, hrequest⟩
    · cases (congrArg Prod.fst hrequest).symm.trans hasleep
    · cases (congrArg Prod.fst hrequest).symm.trans hasleep
    · rw [hrequest]
      rfl
  have hwaits : Moment.Waits ⟨woken, turn.2⟩ (x.visiting page mode rest) := by
    rw [hturn]
    refine ⟨List.mem_append_right _ (List.mem_append_right _ List.mem_cons_self), ?_⟩
    exact SortedMap.get?_insert_self d.calls x.txn _
  have hhand : turn.2.InHand x.txn x.frame := by
    rw [hturn]
    exact ⟨h.hand.safe, h.hand.owned⟩
  obtain ⟨hm, -, hothers⟩ := hrun.honors h.kempt hpooled
  obtain ⟨hwaits', hleaves⟩ := hothers _ hwaits hrests
  obtain ⟨hhand', hsame⟩ := hleaves.hands x.frame hhand
  have hpage : turn.2.pool = d.pool := by rw [hturn]
  obtain ⟨c, hrequest, hc, hpoised, hresume⟩ := hm.poised hwoken
  obtain rfl : c = x.visiting page mode rest :=
    hc.eq_of_txn hwaits' (congrArg LockRequest.txn hrequest :)
  refine ⟨fun r htxn => hpoised.sound.of_txn_eq htxn, hm.rooted, ⟨hhand'.safe, hhand'.owned⟩, ?_,
    ?_, hresume, (hm.honors_resume hwoken).kempt⟩
  · exact hsame.id.trans (hpage ▸ h.page_id)
  · exact hsame.image.trans (hpage ▸ h.image)

/-- When the store is done, the page is readmitted, or there is no room for it. -/
theorem readmits (h : Holding x [] woken n d turn) :
    turn.1 = some (.ok (.ok x.reply)) ∧
        turn.2.pool.Readmitted x.txn x.frame x.id x.image ∨
      turn.1 = some (.ok (.error (.exhausted d.pool.buffer.capacity))) ∧
        d.pool.LeftOut turn.2.pool x.id := by
  have hletGo : ActedFor x.txn d (d.letGo (.operation x.txn)) := .holders d _
  have hrooted := hletGo.rooted h.rooted
  obtain ⟨hhand, -⟩ := h.hand.onPool h.rooted (Pool.respects_holders d.pool
    (d.pool.buffer.holders.erase (.operation x.txn)))
  have houtcome := h.outcome
  rw [handBack, Act.on_modify_bind, Act.on_bind, on_onPool] at houtcome
  rw [← h.page_id, ← h.image]
  rcases Pool.track_cases hrooted x.frame x.txn with ⟨b, hentered⟩ | ⟨hon, hnone⟩
  · rw [hentered.tracked] at houtcome
    subst houtcome
    exact Or.inl ⟨rfl, hentered.readmitted hrooted hhand.safe⟩
  · rw [hon] at houtcome
    subst houtcome
    have hleft := Pool.leftOut_mark hrooted hhand.safe.present x.txn hnone
    exact Or.inr ⟨rfl, hleft.absent, hleft.cached, hleft.order, hleft.files⟩

end Holding

theorem HandsBack.holding (h : HandsBack start x rest woken n d turn) (hstart : start.Kempt) :
    Holding x rest woken n d turn := by
  induction h with
  | @changed woken n c d d' locks turn hasks htxn hgranted hchanges hid himage =>
    obtain ⟨hpoised, rfl, hkempt⟩ := hasks.asking hstart
    obtain ⟨hadmitted, -⟩ := hpoised.admitted hgranted
    obtain ⟨hwithin, hhand, hscan, hproceed⟩ := hchanges.inHand hadmitted
    refine ⟨fun r hr => ?_, hwithin.rooted hadmitted.rooted, htxn ▸ hhand, hid, himage, ?_, hkempt⟩
    · rw [hwithin.locks]
      exact hadmitted.sound.awake fun r' hr' => hr.trans htxn.symm ▸ hadmitted.awake r' hr'
    · rw [runBounded_granted hscan hgranted, hproceed, htxn]
  | letGo _ ih => exact ih.letGo
  | visited _ hgranted hfetch ih => exact ih.visited hgranted hfetch
  | resumed _ hasleep hrun hpooled hrests hwoken ih =>
    exact ih.resumed hasleep hrun hpooled hrests hwoken

/-- A call that is answered has been through all detours of its store. -/
theorem HandsBack.completed (h : HandsBack start x rest woken n d turn) (hstart : start.Kempt)
    (hanswered : turn.1 = some (.ok (.ok reply))) :
    ∃ n d, HandsBack start x [] woken n d turn := by
  induction rest generalizing n d with
  | nil => exact ⟨n, d, h⟩
  | cons detour rest ih =>
    cases detour with
    | letGo => exact ih h.letGo
    | visit page mode =>
      have houtcome := (h.holding hstart).outcome
      rw [onward_visit] at houtcome
      rw [houtcome] at hanswered
      cases n with
      | zero => cases hanswered
      | succ n =>
        obtain ⟨locks, hgranted, hproceeds⟩ :=
          granted_of_answered (fun id ⟨_, hscan⟩ => by cases hscan) hanswered
        obtain ⟨g, d', hfetch, -⟩ := succeeded_of_answered hproceeds
        exact ih (h.visited hgranted hfetch)

/-- A call that is answered has its changed page back in the cache.  When the store is done and
there is no room for the page, nothing is touched. -/
theorem changed_page_readmitted {capacity : Nat} {journal : Journal} {disk : Disk}
    (hdisk : disk.Placed)
    (h : HandsBack ⟨[], Database.create capacity journal disk⟩ x rest woken n d turn) :
    (∀ reply, turn.1 = some (.ok (.ok reply)) →
      reply = x.reply ∧ turn.2.pool.Readmitted x.txn x.frame x.id x.image) ∧
    (rest = [] → turn.1 = some (.ok (.ok x.reply)) ∨
      turn.1 = some (.ok (.error (.exhausted d.pool.buffer.capacity))) ∧
        d.pool.LeftOut turn.2.pool x.id) := by
  have hstart := Moment.kempt_create capacity journal hdisk
  refine ⟨fun reply hanswered => ?_, ?_⟩
  · obtain ⟨n, d, hback⟩ := h.completed hstart hanswered
    rcases (hback.holding hstart).readmits with ⟨hreply, hreadmitted⟩ | ⟨hrefused, -⟩
    · cases hreply.symm.trans hanswered
      exact ⟨rfl, hreadmitted⟩
    · cases hrefused.symm.trans hanswered
  · rintro rfl
    exact (h.holding hstart).readmits.imp_left And.left

/-- A store that drops every page that it has changed and reads the first page again. -/
def wandering : Disk :=
  ((∅ : Disk).addTable ⟨1⟩).update ⟨1⟩ fun s =>
    { s with detours := [.letGo, .visit ⟨⟨1⟩, 0⟩] }

theorem placed_wandering : wandering.Placed := by
  have hsame : Disk.SameContents ((∅ : Disk).addTable ⟨1⟩) wandering :=
    Disk.sameContents_update _ ⟨1⟩ fun _ => rfl
  exact hsame.placed (Disk.mounted_empty.addTable ⟨1⟩).placed

/-- What a call asks for that inserts a row into the first page of its table. -/
def firstInsertion : Call :=
  ⟨⟨1⟩, ⟨⟨1⟩, 0⟩, .exclusive, .insert [7] 0 .tracked⟩

theorem eq_of_fst {α β : Type} {p : α × β} {a : α} (h : p.1 = a) : p = (a, p.2) :=
  Prod.ext h rfl

/-- The inserted row is there in the end, though a blank copy of its page was read meanwhile. -/
theorem changed_page_readmitted_wandering :
    wandering.Placed ∧ ∃ x n d turn,
      HandsBack ⟨[], Database.create 2 .fresh wandering⟩ x [] [] n d turn ∧
      turn.1 = some (.ok (.ok x.reply)) ∧ turn.2.pool.disk.Roomy ∧
      turn.2.pool.Readmitted x.txn x.frame x.id x.image := by
  have hanswered : (Database.start (beginInsert ⟨1⟩ ⟨1⟩ [7] .tracked)
      (Database.create 2 .fresh wandering)).1 =
        some (.ok (.ok (.inserted ⟨firstInsertion.page, ⟨0⟩⟩))) := by
    decide +kernel
  -- The row is placed in the first frame, and the page is fetched again into the second one.
  obtain ⟨d₁, locks, held, locks', again, hwants, hpatience, hgranted, hchanges, hid, hdetours,
      hgranted', hagain⟩ :
      ∃ (d₁ : Database) (locks : LockTable) (held : Database) (locks' : LockTable)
        (again : Database),
        (beginInsert ⟨1⟩ ⟨1⟩ [7] .tracked).on (Database.create 2 .fresh wandering) =
          (.ok (.ok (.wants firstInsertion)), d₁) ∧
        d₁.patience firstInsertion = 5 ∧
        d₁.locks.request firstInsertion.request = (.granted, locks) ∧
        Changes firstInsertion { d₁ with locks } ⟨0⟩ (.inserted ⟨firstInsertion.page, ⟨0⟩⟩) held ∧
        (held.pool.page ⟨0⟩).id = firstInsertion.page ∧
        held.pool.disk.detours ⟨1⟩ = [.letGo, .visit firstInsertion.page] ∧
        held.locks.request ⟨⟨1⟩, firstInsertion.page, .shared⟩ = (.granted, locks') ∧
        (onPool (Pool.fetch firstInsertion.page)).on
          { held.withPool (held.pool.discard firstInsertion.page) with locks := locks' } =
            (.ok (.ok ⟨1⟩), again) :=
    ⟨_, _, _, _, _, eq_of_fst (by decide +kernel), by decide +kernel, eq_of_fst (by decide +kernel),
      .inserted rfl (eq_of_fst (by decide +kernel)) (eq_of_fst (by decide +kernel)),
      by decide +kernel, by decide +kernel, eq_of_fst (by decide +kernel),
      eq_of_fst (by decide +kernel)⟩
  have hasks : Asks ⟨[], Database.create 2 .fresh wandering⟩ [] (d₁.patience firstInsertion)
      firstInsertion d₁ (Database.start (beginInsert ⟨1⟩ ⟨1⟩ [7] .tracked)
        (Database.create 2 .fresh wandering)) :=
    .begun .nil (fun _ _ h => by cases h) rfl (.insert ⟨1⟩ ⟨1⟩ [7]) hwants
  rw [hpatience] at hasks
  have hchanged : HandsBack ⟨[], Database.create 2 .fresh wandering⟩
      ⟨⟨1⟩, ⟨0⟩, firstInsertion.page, (held.pool.page ⟨0⟩).image,
        .inserted ⟨firstInsertion.page, ⟨0⟩⟩⟩ (held.pool.disk.detours ⟨1⟩) [] 4 held _ :=
    .changed hasks rfl hgranted hchanges hid rfl
  rw [hdetours] at hchanged
  have hback := HandsBack.visited hchanged.letGo hgranted' hagain
  have hroom : (Database.start (beginInsert ⟨1⟩ ⟨1⟩ [7] .tracked)
      (Database.create 2 .fresh wandering)).2.pool.disk.Roomy :=
    Disk.roomy_of_all (by decide +kernel)
  obtain ⟨hreadmitted, -⟩ := changed_page_readmitted placed_wandering hback
  exact ⟨placed_wandering, _, _, _, _, hback, hanswered, hroom, (hreadmitted _ hanswered).2⟩

end PagedHeap
