import PagedHeap.Proofs.Database.Legs

/-!
# Insertions leg by leg

An insertion asks for the pages of its table one after the other, from the first one on, and then
for pages that it appends.  So whoever puts a row into a page, or appends a page to a table that has
pages, has the first page of the table for itself, or puts the row there.
-/

namespace PagedHeap

open Database

def Call.Inserts (c : Call) : Prop :=
  ∃ row ahead route, c.errand = .insert row ahead route

/-- An insertion into the table stands at its first page, or its transaction has that page for
itself. -/
def Call.Anchored (table : TableId) (c : Call) (d : Database) : Prop :=
  c.Inserts → c.page.table = table → c.page = ⟨table, 0⟩ ∨ d.owns ⟨table, 0⟩ c.txn

variable {t u : TxnId} {table : TableId} {cmd : Option Command} {command : Command}
  {d d' : Database} {c : Call} {row : Row} {ahead : Nat} {rid : RecordId} {l l' : Ledger}
  {m m' : Moment} {o : Occurrence} {new : List Event} {upkeep : Prop}
  {wants : Call → Database → Prop} {ends : Outcome → Database → Prop}
  {act : Act Database Progress}

/-! ## How an insertion lands -/

/-- An insertion that has found no room wants the next page, or one that it appends. -/
theorem lands_insertFrom (hp : Pool.Coherent d.owns d.pool) (table : TableId) (pageNo : UInt32)
    (hnext : ∀ left, ahead = left + 1 →
      wants ⟨t, ⟨table, pageNo⟩, .exclusive, .insert row left .tracked⟩ d)
    (hbehind : ∀ p, ahead = 0 → Acted t d (d.withPool p) [] → p.buffer = d.pool.buffer →
      Disk.Grown d.pool.disk p.disk ⟨table, d.pool.disk.pageCount table⟩ →
      p.disk.pages table ≤ d.pool.disk.pages table + 1 →
        wants ⟨t, ⟨table, d.pool.disk.pageCount table⟩, .exclusive, .insert row 0 .tracked⟩
          (d.withPool p))
    (hrefused : ∀ e, ends (.ok (.error e)) d) :
    Lands wants ends ((insertFrom t table pageNo row ahead .tracked).on d) := by
  cases ahead with
  | succ left => exact .wants (hnext left rfl)
  | zero =>
    simp only [insertFrom, insertBehind, Act.on_bind, on_onPool]
    rcases Pool.appendPage_cases hp.mounted table with
      ⟨id, p, hon, rfl, hbuffer, hgrown, hsteady, hone⟩ | ⟨e, hon⟩
    · rw [hon]
      have hacted : Acted t d (d.withPool p) [] :=
        .onPool (.single (Pool.move_of_grown hp.framed hbuffer hgrown hsteady))
      exact .wants (hbehind p rfl hacted hbuffer hgrown hone)
    · rw [hon]
      exact .refused (hrefused e)

/-- An insertion that has its page puts the row there, or goes on behind it. -/
theorem lands_insertHere (hp : Pool.Coherent d.owns d.pool) (howns : d.owns c.page c.txn)
    (hshort : row.length ≤ maxRowSize)
    (hplaced : ∀ rid d', rid.page = c.page → Acted c.txn d d' [.put rid row] →
      Disk.SameFiles d.pool.disk d'.pool.disk → ends (.ok (.ok (.inserted rid))) d')
    (honward : ∀ d', Acted c.txn d d' [] → Disk.SameFiles d.pool.disk d'.pool.disk →
      d'.pool.Full c.page row.length → Lands wants ends
        ((insertFrom c.txn c.page.table (c.page.pageNo + 1) row ahead .tracked).on d'))
    (hrefused : ∀ e d', Acted c.txn d d' [] → Disk.SameFiles d.pool.disk d'.pool.disk →
      ends (.ok (.error e)) d')
    (hfault : ∀ fault d', Acted c.txn d d' [] → Disk.SameFiles d.pool.disk d'.pool.disk →
      ends (.error fault) d') :
    Lands wants ends ((insertHere c row ahead .tracked).on d) := by
  rcases insertHere_cases hp howns hshort ahead with ⟨rid, d', hon, hpage, hacted, hsame⟩ |
    ⟨d', hon, hacted, hfull, hsame⟩ | ⟨hfails, hsame⟩
  · rw [hon]
    exact .finished (hplaced rid d' hpage hacted hsame)
  · rw [hon]
    exact honward d' hacted hsame hfull
  · generalize (insertHere c row ahead .tracked).on d = x at hfails hsame ⊢
    cases hfails with
    | refused hacted => exact .refused (hrefused _ _ hacted hsame)
    | fault hacted _ => exact .fault (hfault _ _ hacted hsame)

/-! ## What does not insert -/

/-- No row was put anywhere, and no insertion is under way. -/
abbrev LandsIdle (t : TxnId) (x : Checked (Except Error Progress) × Database) : Prop :=
  Lands (fun next _ => next.txn = t ∧ ¬ next.Inserts)
    (fun outcome _ => ∀ rid, outcome ≠ .ok (.ok (.inserted rid))) x

theorem Fails.landsIdle {x : Checked (Except Error Progress) × Database} (h : Fails t d x) :
    LandsIdle t x := by
  cases h with
  | refused => exact .refused fun _ heq => by cases heq
  | fault => exact .fault fun _ heq => by cases heq

theorem landsIdle_scanFrom (id : CursorId) (cursor : Cursor) (harvest : Harvest) (d : Database) :
    LandsIdle cursor.txn ((scanFrom id cursor harvest).on d) := by
  rcases scanFrom_cases id cursor harvest d with ⟨result, d', hon, hscan, -⟩ |
    ⟨cursor', harvest', hon, halike, -⟩
  · rw [hon]
    cases result with
    | error e => exact .refused fun _ heq => by cases heq
    | ok reply =>
      refine .finished fun rid heq => ?_
      obtain rfl := Except.ok.inj (Except.ok.inj heq)
      rcases hscan _ rfl with ⟨row, hrow⟩ | ⟨rows, failure, hrest⟩
      · cases hrow
      · cases hrest
  · rw [hon]
    refine .wants ⟨halike.txn, ?_⟩
    rintro ⟨row, ahead, route, herrand⟩
    cases herrand

/-- What is granted to a call that does not insert does not lead to an insertion. -/
theorem landsIdle_proceed (h : c.Granted cmd d) (hnot : ¬ c.Inserts) :
    LandsIdle c.txn ((proceed c).on d) := by
  rw [proceed]
  split
  case h_1 keep _ =>
    rcases fetchHere_cases h.coherent keep with ⟨page, d', hon, -⟩ | hfails
    · rw [hon]
      exact .finished fun _ heq => by cases heq
    · exact hfails.landsIdle
  case h_2 row ahead route herrand => exact absurd ⟨row, ahead, route, herrand⟩ hnot
  case h_3 slot route herrand =>
    obtain ⟨rfl, hmode, -⟩ := h.works.delete slot route herrand
    rcases deleteHere_cases h.coherent (h.owns hmode) slot with ⟨d', hon, -⟩ | hfails
    · rw [hon]
      exact .finished fun _ heq => by cases heq
    · exact hfails.landsIdle
  case h_4 frame rest reply herrand => exact absurd herrand (h.works.detour frame rest reply)
  case h_5 id harvest herrand =>
    obtain ⟨cursor, hget, htxn, -⟩ := h.works.scan id harvest herrand
    rcases scanHere_cases h.coherent hget harvest with ⟨p, rows, hon, -⟩ | hfails
    · rw [hon]
      exact htxn ▸ landsIdle_scanFrom id (cursor.accept rows) harvest (d.withPool p)
    · exact hfails.landsIdle

/-- Only an insertion begins one. -/
theorem Begins.landsIdle (h : Begins d command t act)
    (hnot : ∀ table row, command ≠ .insert t table row .tracked) : LandsIdle t (act.on d) := by
  cases h with
  | fetch _ page mode keep =>
    refine .wants ⟨rfl, ?_⟩
    rintro ⟨row, ahead, route, herrand⟩
    cases herrand
  | insert _ table row => exact absurd rfl (hnot table row)
  | delete _ table rid =>
    rw [beginDelete, if_pos rfl]
    simp only [Act.on_bind, Act.on_get, Act.on_ofResult]
    cases d.pool.disk.lookup table with
    | error e => exact .refused fun _ heq => by cases heq
    | ok store =>
      simp only
      cases d.pool.disk.store? table with
      | none => exact .refused fun _ heq => by cases heq
      | some store =>
        simp only [Act.on_bind, Act.on_ofResult]
        cases store.require rid.page with
        | error e => exact .refused fun _ heq => by cases heq
        | ok _ =>
          refine .wants ⟨rfl, ?_⟩
          rintro ⟨row, ahead, route, herrand⟩
          cases herrand
  | next id cursor hget => exact landsIdle_scanFrom id cursor .next d
  | rest id cursor hget => exact landsIdle_scanFrom id cursor (.rest []) d

/-- An insertion begins at the first page of its table, if there is one. -/
theorem lands_beginInsert (table : TableId) (row : Row)
    (hrefused : ∀ e, ends (.ok (.error e)) d)
    (hwalk : row.length ≤ maxRowSize → Lands wants ends
      ((insertFrom t table 0 row (d.pool.disk.pageCount table).toNat .tracked).on d)) :
    Lands wants ends ((beginInsert t table row .tracked).on d) := by
  rw [beginInsert, if_pos rfl]
  simp only [Act.on_bind, Act.on_get, Act.on_ofResult]
  cases d.pool.disk.lookup table with
  | error e => exact .refused (hrefused e)
  | ok store =>
    simp only
    split
    case isTrue => exact .refused (hrefused _)
    case isFalse hshort =>
      simp only [Act.on_bind, Act.on_get, Act.on_ofResult]
      cases hcount : d.pool.disk.count ⟨table, 0⟩ with
      | error e => exact .refused (hrefused e)
      | ok count =>
        obtain rfl := Disk.count_eq_ok hcount
        exact hwalk (Nat.le_of_not_lt hshort)

/-! ## The first page of a table -/

theorem Call.Anchored.mono (h : c.Anchored table d)
    (howns : ∀ id u, d.owns id u → d'.owns id u) : c.Anchored table d' :=
  fun hinserts htable => (h hinserts htable).imp_right (howns _ _)

theorem anchored_of_not (hnot : ¬ c.Inserts) (table : TableId) (d : Database) :
    c.Anchored table d :=
  fun hinserts => absurd hinserts hnot

/-- A call that failed has put no row anywhere. -/
theorem fail_ne_inserted (d : Database) (c : Call) (e : Error) (rid : RecordId) :
    (d.fail c e).1 ≠ .ok (.inserted rid) := by
  rw [Database.fail]
  split
  case h_1 id harvest _ =>
    cases harvest with
    | next => exact fun heq => by cases heq
    | rest rows => exact fun heq => by cases heq
  case h_2 => exact fun heq => by cases heq

/-- A turn that leaves an insertion under way leaves it anchored, and one that has put a row into
the table leaves its first page to the transaction. -/
structure EndsAnchored (t : TxnId) (table : TableId) (o : Option Outcome) (d : Database) :
    Prop where
  calls : o = none → ∀ c, d.calls.get? t = some c → c.Anchored table d
  placed : ∀ rid, o = some (.ok (.ok (.inserted rid))) → rid.page.table = table →
    d.owns ⟨table, 0⟩ t

theorem EndsAnchored.of_ended {outcome : Outcome}
    (h : ∀ rid, outcome ≠ .ok (.ok (.inserted rid))) :
    EndsAnchored t table (some outcome) d :=
  ⟨fun heq => (by cases heq), fun rid heq => absurd (Option.some.inj heq) (h rid)⟩

/-- Behind the first page the transaction goes on with that page for itself. -/
theorem lands_onward (hp : Pool.Coherent d.owns d.pool) (t : TxnId) (table' : TableId)
    (pageNo : UInt32) (row : Row) (ahead : Nat) (howns : table' = table → d.owns ⟨table, 0⟩ t)
    (hends : ∀ e, ends (.ok (.error e)) d) :
    Lands (fun c d => c.txn = t ∧ c.Anchored table d) ends
      ((insertFrom t table' pageNo row ahead .tracked).on d) := by
  apply lands_insertFrom hp table' pageNo
  · exact fun left _ => ⟨rfl, fun _ htable => Or.inr (howns htable)⟩
  · intro p _ hacted _ _ _
    refine ⟨rfl, fun _ htable => Or.inr ?_⟩
    rw [hacted.owns_eq]
    exact howns htable
  · exact hends

theorem anchored_kept (cmd : Option Command) (t : TxnId) (table : TableId) :
    KeptByLegs cmd (fun c d => c.txn = t ∧ c.Anchored table d) (EndsAnchored t table) where
  asks c d locks hbegins _ howns := ⟨hbegins.1, hbegins.2.mono howns⟩
  endless c d _ := .of_ended fun _ heq => by cases heq
  sleeps c d hbegins := by
    obtain ⟨rfl, hanchored⟩ := hbegins
    refine ⟨fun _ c' hcall => ?_, fun _ heq => by cases heq⟩
    obtain rfl := Option.some.inj ((SortedMap.get?_insert_self _ _ _).symm.trans hcall)
    exact hanchored
  deadlock c d _ := .of_ended fun rid heq => fail_ne_inserted d c _ rid (Except.ok.inj heq)
  granted c d hbegins hgranted := by
    obtain ⟨rfl, hanchored⟩ := hbegins
    by_cases hinserts : c.Inserts
    case neg =>
      refine (landsIdle_proceed hgranted hinserts).mono
        (fun next d' hnext => ⟨hnext.1, anchored_of_not hnext.2 table d'⟩) fun outcome d' hnot => ?_
      rcases outcome with fault | e | reply
      · exact .of_ended fun _ heq => by cases heq
      · exact .of_ended fun rid heq => fail_ne_inserted d' c e rid (Except.ok.inj heq)
      · exact .of_ended hnot
    obtain ⟨row, ahead, route, herrand⟩ := hinserts
    obtain ⟨rfl, hmode, hshort, -⟩ := hgranted.works.insert row ahead route herrand
    have howns := hgranted.owns hmode
    have hfirst : c.page.table = table → d.owns ⟨table, 0⟩ c.txn := by
      intro htable
      rcases hanchored ⟨row, ahead, _, herrand⟩ htable with hpage | hmine
      · exact hpage ▸ howns
      · exact hmine
    have hproceed : proceed c = insertHere c row ahead .tracked := by
      rw [proceed, herrand]
    rw [hproceed]
    apply lands_insertHere hgranted.coherent howns hshort
    · intro rid d' hpage hacted _
      refine ⟨fun heq => (by cases heq), fun rid' heq htable => ?_⟩
      obtain rfl := Reply.inserted.inj (Except.ok.inj (Except.ok.inj (Option.some.inj heq)))
      rw [hacted.owns_eq]
      exact hfirst (hpage ▸ htable)
    · intro d' hacted _ _
      apply lands_onward (hacted.coherent hgranted.coherent)
      · rw [hacted.owns_eq]
        exact hfirst
      · exact fun e => .of_ended fun rid heq => fail_ne_inserted d' c e rid (Except.ok.inj heq)
    · exact fun e d' _ _ => .of_ended fun rid heq => fail_ne_inserted d' c e rid (Except.ok.inj heq)
    · exact fun fault d' _ _ => .of_ended fun _ heq => by cases heq

/-- A call that was just begun is anchored. -/
theorem Begins.anchored (h : Begins d command t act) (hp : Pool.Coherent d.owns d.pool)
    (table : TableId) :
    Lands (fun c d => c.txn = t ∧ c.Anchored table d)
      (fun outcome d => EndsAnchored t table (some outcome) d) (act.on d) := by
  by_cases hinsert : ∃ table' row, command = .insert t table' row .tracked
  case neg =>
    refine (h.landsIdle fun table' row heq => hinsert ⟨table', row, heq⟩).mono
      (fun next d' hnext => ⟨hnext.1, anchored_of_not hnext.2 table d'⟩) fun outcome d' hnot => ?_
    exact .of_ended hnot
  obtain ⟨table', row, rfl⟩ := hinsert
  have hrefused : ∀ e : Error, EndsAnchored t table (some (.ok (.error e))) d :=
    fun e => .of_ended fun _ heq => by cases heq
  cases h
  apply lands_beginInsert table' row hrefused
  intro _
  -- A table without pages gets its first one.
  have hfirst : (d.pool.disk.pageCount table').toNat = 0 → table' = table →
      (⟨table', d.pool.disk.pageCount table'⟩ : PageId) = ⟨table, 0⟩ := by
    rintro hzero rfl
    exact congrArg (PageId.mk table') (UInt32.toNat_inj.mp hzero)
  apply lands_insertFrom hp table' 0
  · rintro left -
    refine ⟨rfl, fun _ htable => Or.inl ?_⟩
    exact congrArg (fun table => (⟨table, 0⟩ : PageId)) htable
  · intro p hzero _ _ _ _
    exact ⟨rfl, fun _ htable => Or.inl (hfirst hzero htable)⟩
  · exact hrefused

end PagedHeap
