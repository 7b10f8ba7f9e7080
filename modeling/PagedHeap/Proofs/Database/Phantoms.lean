import PagedHeap.Proofs.Database.Bystanders
import PagedHeap.Proofs.Database.Insertions
import PagedHeap.Proofs.Database.Snapshots
import PagedHeap.Proofs.Pool.Blank

/-!
# No phantoms

Locks cover pages that are there.  But whoever puts a row into a table has the first page of the
table for itself, and so has whoever goes on to a page that it appends.  While a transaction that
has scanned the table holds its pages, nothing is put into pages that come later, so another scan
finds what the first one has found.
-/

namespace PagedHeap

open Database

/-- Whoever waits to insert a row into the table waits for its first page, or has that page. -/
def Moment.Anchored (m : Moment) (table : TableId) : Prop :=
  ∀ c, m.Waits c → c.Anchored table m.db

/-- A transaction has read the records of the table, holds the pages that there were then, and
nothing has been put into later ones. -/
structure Kept (t : TxnId) (table : TableId) (rows : List (RecordId × Row)) (d : Database) :
    Prop where
  covers : ∃ images n, 0 < n ∧ n ≤ d.pool.disk.pages table ∧ Covered t table images n d ∧
    d.pool.BlankFrom table n ∧ rows = recordsOf table images n

variable {id id₁ id₂ : CursorId} {t u : TxnId} {table : TableId} {r : Reading} {d d' : Database}
  {rows rows' : List (RecordId × Row)} {c : Call} {cmd : Option Command} {reply : Reply}
  {events new : List Event} {upkeep : Prop} {l l' : Ledger} {m m' m₀ m₁ m₂ m₃ : Moment}
  {o : Occurrence} {outcome : Option Outcome} {occurrences before first second : List Occurrence}
  {command opening₁ opening₂ : Command} {act : Act Database Progress} {rid : RecordId} {row : Row}
  {n : Nat}

/-! ## The first page of a table -/

namespace Passes

/-- Insertions that wait stay anchored, and whoever puts a row into the table has its first page. -/
theorem anchored (h : Passes upkeep l m o l' m' new) (hanchored : m.Anchored table) :
    m'.Anchored table ∧ ∀ u rid row, .changed u (.put rid row) ∈ new → rid.page.table = table →
      m'.db.owns ⟨table, 0⟩ u := by
  have hold : ∀ c, m.Waits c → c.Anchored table m'.db := by
    intro c hc hinserts htable
    exact (hanchored c hc hinserts htable).imp_right (h.owns (h.unended_of_waits hc))
  have hput : ∀ u rid row, .changed u (.put rid row) ∈ new → o.Replies u (.inserted rid) := by
    intro u rid row hmem
    obtain ⟨reply, cmd, hreplies, hop⟩ := Ledger.replies_of_changed (h.noted ▸ h.events) hmem
    exact eq_inserted_of_mem hop ▸ hreplies
  have hm := h.before
  cases h.stepped with
  | busy command =>
    refine ⟨hold, fun u rid row hmem _ => ?_⟩
    cases hput u rid row hmem
  | aside command answer hanswer hidle hwaits _ =>
    refine ⟨fun c hc => hold c ((hwaits c).mp hc), fun u rid row hmem _ => ?_⟩
    cases hput u rid row hmem with
    | command _ hcaller =>
      obtain ⟨act, hbegins⟩ := exists_begins_of_caller (h.orderly _ _ rfl) hcaller m.db
      exact absurd hbegins (hidle u act)
  | begun command t act hbegins hawake =>
    have hwaits := hm.waits_begun hbegins hawake
    have hends := (anchored_kept command.asked t table).start hm.sound hm.coherent hawake
      (hbegins.proceeds hm.coherent) (hbegins.anchored hm.coherent table)
    refine ⟨fun c hc => ?_, fun u rid row hmem htable => ?_⟩
    · rcases (hwaits c).mp hc with ⟨-, hother⟩ | ⟨-, hnone, hcall⟩
      · exact hold c hother
      · exact hends.calls hnone c hcall
    · generalize hanswer : answerOf (start act m.db).1 = answer at hput
      cases hput u rid row hmem with
      | command _ hcaller =>
        obtain rfl := hbegins.txn_eq hcaller
        exact hends.placed rid (answerOf_eq_replied hanswer) htable
  | resumed c hc hready =>
    have hwaits := hready.waits
    have htaken : c.txn = c.txn ∧
        c.Anchored table { m.db with calls := m.db.calls.erase c.txn } :=
      ⟨rfl, (hanchored c hc).mono fun _ _ howns => howns⟩
    have hends := (anchored_kept (l.pending c.txn) c.txn table).run hready htaken
    refine ⟨fun c' hc' => ?_, fun u rid row hmem htable => ?_⟩
    · rcases (hwaits c').mp hc' with ⟨-, hother⟩ | ⟨-, hnone, hcall⟩
      · exact hold c' hother
      · exact hends.calls hnone c' hcall
    · generalize houtcome : (run c { m.db with calls := m.db.calls.erase c.txn }).1 = outcome
        at hput
      cases hput u rid row hmem with
      | resumed => exact hends.placed rid houtcome htable

/-- Nobody but the one who has the first page of the table puts a row into it. -/
theorem noPuts (h : Passes upkeep l m o l' m' new) (hquiet : Quiet t table new)
    (hanchored : m.Anchored table) (hheld : m'.db.holds ⟨table, 0⟩ t) {ops : List RowOp}
    (hnew : new = ops.map (.changed u)) : NoPuts table ops := by
  intro rid row hop htable
  have hmem : .changed u (.put rid row) ∈ new := hnew ▸ List.mem_map_of_mem hop
  have howns := (h.anchored hanchored).2 u rid row hmem htable
  obtain rfl : u = t := (h.after.sound.wellFormed _).eq_of_owns howns hheld |>.symm
  exact hquiet.unchanged _ hmem htable

theorem kept (h : Passes upkeep l m o l' m' new) (hquiet : Quiet t table new)
    (hanchored : m.Anchored table) (hkept : Kept t table rows m.db) : Kept t table rows m'.db := by
  obtain ⟨images, n, hpos, hle, hcovered, hblank, hrows⟩ := hkept.covers
  have hcovered' := h.covered hquiet hcovered
  have hp := h.before.coherent
  refine ⟨images, n, hpos, Nat.le_trans hle (h.effect.pages_le table), hcovered', ?_, hrows⟩
  have hfirst : m'.db.holds ⟨table, 0⟩ t := hcovered'.held 0 hpos
  have hnone : ∀ u ops, new = ops.map (.changed u) → NoPuts table ops := fun u ops hnew =>
    h.noPuts hquiet hanchored hfirst hnew
  cases h.effect with
  | served u ops hmoves _ howns =>
    exact hmoves.blankFrom (hp.mono howns) (hnone u ops rfl) hblank
  | fetched u page hmoves _ howns _ _ =>
    exact hmoves.blankFrom (hp.mono howns) (fun _ _ hmem => absurd hmem List.not_mem_nil) hblank
  | ended u committed _ hending _ => exact hending.blankFrom hp hblank

end Passes

/-- In a run in which nobody waits at first, insertions that wait are always anchored. -/
theorem Run.anchored (h : Run m occurrences m') (hm : m.Consistent l)
    (horderly : OrderlyRun upkeep occurrences) (hanchored : m.Anchored table) :
    m'.Consistent (occurrences.foldl Ledger.note l) ∧
      ∃ new, (occurrences.foldl Ledger.note l).events = l.events ++ new ∧ m'.Anchored table ∧
        m.db.pool.disk.pages table ≤ m'.db.pool.disk.pages table := by
  apply h.carries hm horderly (P := fun _ _ m' =>
    m'.Anchored table ∧ m.db.pool.disk.pages table ≤ m'.db.pool.disk.pages table)
  · exact ⟨hanchored, Nat.le_refl _⟩
  · intro occurrences new m₁ o m₂ new' l₁ l₂ hkept _ hpasses
    exact ⟨(hpasses.anchored hkept.1).1, Nat.le_trans hkept.2 (hpasses.effect.pages_le table)⟩

theorem Run.anchored_of_create {capacity : Nat} {journal : Journal} {disk : Disk}
    (h : Run ⟨[], Database.create capacity journal disk⟩ occurrences m) (hdisk : disk.Mounted)
    (horderly : OrderlyRun upkeep occurrences) (table : TableId) :
    m.Consistent (Ledger.of occurrences) ∧ m.Anchored table := by
  have hidle : Moment.Anchored ⟨[], Database.create capacity journal disk⟩ table :=
    fun c hc => absurd hc.request List.not_mem_nil
  obtain ⟨hm, -, -, hanchored, -⟩ :=
    h.anchored (consistent_create capacity journal hdisk) horderly hidle
  exact ⟨hm, hanchored⟩

/-! ## What a scan has read -/

theorem Scanned.kept (h : Scanned id t table rows d) (hp : Pool.Coherent d.owns d.pool)
    (hpages : 0 < d.pool.disk.pages table) : Kept t table rows d := by
  obtain ⟨images, hcovered, hrows⟩ := h.covers
  exact ⟨images, _, hpages, Nat.le_refl _, hcovered, hp.blankFrom_pages table, hrows⟩

/-- Pages that come after those that one scan has read are blank, whatever another one reads. -/
theorem Covered.recordsOf_eq {images images' : Nat → Image} {k : Nat}
    (h : Covered t table images n d) (h' : Covered u table images' k d) (hle : n ≤ k)
    (hk : k ≤ d.pool.disk.pages table) (hblank : d.pool.BlankFrom table n)
    (hroom : d.pool.disk.pages table < pageBound) :
    recordsOf table images n = recordsOf table images' k := by
  have hcontent : ∀ i < k, d.pool.content? (table.page i) = some (images' i) := by
    intro i hi
    rcases h'.shown i hi with hcontent | ⟨-, -, hfull⟩
    · exact hcontent
    · exact absurd hfull (Nat.not_le_of_lt hroom)
  have hsame : ∀ i < n, images i = images' i := by
    intro i hi
    rcases h.shown i hi with hshown | ⟨-, -, hfull⟩
    · exact Option.some.inj (hshown.symm.trans (hcontent i (Nat.lt_of_lt_of_le hi hle)))
    · exact absurd hfull (Nat.not_le_of_lt hroom)
  have hlater : ∀ i, n ≤ i → i < k → images' i = Image.blank := by
    intro i hi hik
    have hsmall : i < UInt32.size := Nat.lt_trans (Nat.lt_of_lt_of_le hik hk) hroom
    refine hblank.content ⟨rfl, ?_⟩ (hcontent i hik)
    rwa [table.toNat_page hsmall]
  calc recordsOf table images n = recordsOf table images' n := recordsOf_congr hsame
    _ = recordsOf table images' k := (recordsOf_blank hlater hle).symm

/-- All that a transaction has read to the end, and keeps, are the same rows. -/
theorem Kept.unique (h : Kept t table rows d) (h' : Kept u table rows' d)
    (hroom : d.pool.disk.pages table < pageBound) : rows = rows' := by
  obtain ⟨images, n, -, hn, hcovered, hblank, rfl⟩ := h.covers
  obtain ⟨images', n', -, hn', hcovered', hblank', rfl⟩ := h'.covers
  rcases Nat.le_total n n' with hle | hle
  · exact hcovered.recordsOf_eq hcovered' hle hn' hblank hroom
  · exact (hcovered'.recordsOf_eq hcovered hle hn hblank' hroom).symm

/-- What the observer of a scan has seen is there, as long as the scan goes on and after its end. -/
structure Reading.Lasts (id : CursorId) (t : TxnId) (table : TableId) (r : Reading) (m : Moment) :
    Prop where
  going : r.standing = .going → r.Stands id t table m
  complete : r.standing = .complete → Kept t table r.rows m.db

namespace Reading

theorem Stands.lasts (h : r.Stands id t table m) (hm : m.Consistent l)
    (hpages : 0 < m.db.pool.disk.pages table) : r.Lasts id t table m := by
  refine ⟨fun _ => h, fun hcomplete => ?_⟩
  cases h with
  | completes _ hscanned _ => exact hscanned.kept hm.coherent hpages
  | rests hgoing => cases hgoing.symm.trans hcomplete
  | waits hgoing => cases hgoing.symm.trans hcomplete
  | broken hbroken => cases hbroken.symm.trans hcomplete

theorem Lasts.step (h : r.Lasts id t table m) (hpasses : Passes upkeep l m o l' m' new)
    (hquiet : Quiet t table new) (hanchored : m.Anchored table)
    (hpages : 0 < m'.db.pool.disk.pages table) (hroom : m'.db.pool.disk.pages table < pageBound) :
    (r.note id t o).Lasts id t table m' := by
  cases hstanding : r.standing with
  | going =>
    exact ((h.going hstanding).step hstanding hpasses hquiet hroom).lasts hpasses.after hpages
  | complete =>
    rw [note_of_not_going (by rw [hstanding]; exact fun heq => by cases heq)]
    refine ⟨fun hgoing => ?_, fun _ => hpasses.kept hquiet hanchored (h.complete hstanding)⟩
    cases hstanding.symm.trans hgoing
  | broken =>
    rw [note_of_not_going (by rw [hstanding]; exact fun heq => by cases heq)]
    refine ⟨fun hgoing => ?_, fun hcomplete => ?_⟩
    · cases hstanding.symm.trans hgoing
    · cases hstanding.symm.trans hcomplete

/-- From the opening of a cursor on, whatever happens after the end of the scan. -/
theorem lasts_run {result : Except Error Unit}
    (hopening : Step m (.command command (.done result)) m₁)
    (hopens : command.OpensFor m.db id t table) (hrun : Run m₁ occurrences m') (hm : m.Consistent l)
    (horderly : OrderlyRun upkeep (.command command (.done result) :: occurrences))
    (hanchored : m.Anchored table) (hpages : 0 < m.db.pool.disk.pages table) :
    ∃ new, ((.command command (.done result) :: occurrences).foldl Ledger.note l).events =
        l.events ++ new ∧
      (Quiet t table new → m'.db.pool.disk.pages table < pageBound →
        (of id t occurrences).Lasts id t table m') := by
  obtain ⟨hfirst, hrest⟩ := orderlyRun_cons.mp horderly
  obtain ⟨hm₁, hopened⟩ := hopening.passes_opening hm hopens
  obtain ⟨-, -, -, hanchored₁, hgrown₁⟩ := (Run.single hopening).anchored hm
    (orderlyRun_cons.mpr ⟨hfirst, fun _ _ hmem => absurd hmem List.not_mem_nil⟩) hanchored
  have hpages₁ := Nat.lt_of_lt_of_le hpages hgrown₁
  obtain ⟨-, new, hevents, -, -, hlasts⟩ := hrun.carries hm₁ hrest
    (P := fun occurrences new m' => m'.Anchored table ∧ 0 < m'.db.pool.disk.pages table ∧
      (Quiet t table new → m'.db.pool.disk.pages table < pageBound →
        (of id t occurrences).Lasts id t table m'))
    ⟨hanchored₁, hpages₁, fun _ _ => hopened.lasts hm₁ hpages₁⟩
    fun occurrences new m₁ o m₂ new' l₁ l₂ hkept _ hpasses => by
      obtain ⟨hanchored₁, hpages₁, hlasts⟩ := hkept
      have hpages₂ := Nat.lt_of_lt_of_le hpages₁ (hpasses.effect.pages_le table)
      refine ⟨(hpasses.anchored hanchored₁).1, hpages₂, fun hquiet hroom => ?_⟩
      obtain ⟨hquiet₁, hquiet₂⟩ := quiet_append.mp hquiet
      have hroom₁ := Nat.lt_of_le_of_lt (hpasses.effect.pages_le table) hroom
      rw [of_snoc]
      exact (hlasts hquiet₁ hroom₁).step hpasses hquiet₂ hanchored₁ hpages₂ hroom
  rw [List.foldl_cons, Ledger.note_opening hopens]
  exact ⟨new, hevents, hlasts⟩

end Reading

/-- Take any run in which two cursors of one transaction are opened on a table that has pages, or
one cursor is opened and opened again, and in which both scans come to their ends.  If the
transaction has neither ended nor changed rows of the table since the first opening, the two scans
have handed out the same rows, whatever others did meanwhile. -/
theorem rescan_unchanged {capacity : Nat} {journal : Journal} {disk : Disk} (hdisk : disk.Mounted)
    (hbefore : Run ⟨[], Database.create capacity journal disk⟩ before m₀)
    (hpages : 0 < m₀.db.pool.disk.pages table)
    (hopens₁ : opening₁.OpensFor m₀.db id₁ t table)
    (hopening₁ : Step m₀ (.command opening₁ (.done (.ok ()))) m₁) (hfirst : Run m₁ first m₂)
    (hopens₂ : opening₂.OpensFor m₂.db id₂ t table)
    (hopening₂ : Step m₂ (.command opening₂ (.done (.ok ()))) m₃) (hsecond : Run m₃ second m)
    (horderly : OrderlyRun True (before ++ .command opening₁ (.done (.ok ())) ::
      (first ++ .command opening₂ (.done (.ok ())) :: second)))
    (hcomplete₁ : (Reading.of id₁ t
      (first ++ .command opening₂ (.done (.ok ())) :: second)).standing = .complete)
    (hcomplete₂ : (Reading.of id₂ t second).standing = .complete)
    (hevents : (Ledger.of (before ++ .command opening₁ (.done (.ok ())) ::
      (first ++ .command opening₂ (.done (.ok ())) :: second))).events =
        (Ledger.of before).events ++ new)
    (hquiet : Quiet t table new) (hroom : m.db.pool.disk.pages table < pageBound) :
    (Reading.of id₁ t (first ++ .command opening₂ (.done (.ok ())) :: second)).rows =
      (Reading.of id₂ t second).rows := by
  obtain ⟨horderly₀, horderly₁⟩ := orderlyRun_append.mp horderly
  obtain ⟨hm₀, hanchored₀⟩ := hbefore.anchored_of_create hdisk horderly₀ table
  obtain ⟨new₁, hevents₁, hlasts₁⟩ := Reading.lasts_run hopening₁ hopens₁
    (hfirst.trans ((Run.single hopening₂).trans hsecond)) hm₀ horderly₁ hanchored₀ hpages
  -- The second scan begins somewhere on the way of the first one, or after it.
  have hmid := (Run.single hopening₁).trans hfirst
  obtain ⟨horderly₂, horderly₃⟩ : OrderlyRun True ([.command opening₁ (.done (.ok ()))] ++ first) ∧
      OrderlyRun True (.command opening₂ (.done (.ok ())) :: second) :=
    orderlyRun_append.mp horderly₁
  obtain ⟨hm₂, new₀, hevents₀, hanchored₂, hgrown⟩ := hmid.anchored hm₀ horderly₂ hanchored₀
  obtain ⟨new₂, hevents₂, hlasts₂⟩ := Reading.lasts_run hopening₂ hopens₂ hsecond hm₂ horderly₃
    hanchored₂ (Nat.lt_of_lt_of_le hpages hgrown)
  have hnew₁ : new = new₁ := by
    rw [Ledger.of, List.foldl_append] at hevents
    exact List.append_cancel_left (hevents.symm.trans hevents₁)
  have hnew₂ : new₁ = new₀ ++ new₂ := by
    rw [hevents₀, List.append_assoc, ← List.foldl_append] at hevents₂
    exact List.append_cancel_left (hevents₁.symm.trans hevents₂)
  have hquiet₂ : Quiet t table new₂ := (quiet_append.mp (hnew₂ ▸ hnew₁ ▸ hquiet)).2
  have hkept₁ := (hlasts₁ (hnew₁ ▸ hquiet) hroom).complete hcomplete₁
  have hkept₂ := (hlasts₂ hquiet₂ hroom).complete hcomplete₂
  exact hkept₁.unique hkept₂ hroom

namespace Rescan

/-- A table with one row. -/
def filled : List Occurrence × Moment :=
  Moment.obeying ⟨[], Database.create 1 .fresh (Disk.ofTables [⟨1⟩])⟩
    [.insert ⟨3⟩ ⟨1⟩ [7] .tracked, .commit ⟨3⟩]

def opened : Moment :=
  ⟨filled.2.woken, filled.2.db.setCursor ⟨0⟩ (Cursor.start ⟨1⟩ ⟨1⟩)⟩

/-- The table is read, and somebody else wants to add a row and another one to take the row out. -/
def scanned : List Occurrence × Moment :=
  opened.obeying [.next ⟨0⟩, .insert ⟨2⟩ ⟨1⟩ [8] .tracked, .next ⟨0⟩,
    .delete ⟨4⟩ ⟨1⟩ ⟨⟨⟨1⟩, 0⟩, ⟨0⟩⟩ .tracked]

def rewound : Moment :=
  ⟨scanned.2.woken, (scanned.2.db.carryOut (.rewindCursor ⟨0⟩)).2⟩

def rescanned : List Occurrence × Moment :=
  rewound.obeying [.rest ⟨0⟩]

def rewinding : Occurrence :=
  .command (.rewindCursor ⟨0⟩) (.done (.ok ()))

/-- What happens from the first opening on. -/
def scans : List Occurrence :=
  .command (.openCursor ⟨0⟩ ⟨1⟩ ⟨1⟩) (.done (.ok ())) :: (scanned.1 ++ rewinding :: rescanned.1)

end Rescan

/-- Two others fall asleep over the table, and the row is found again. -/
theorem rescan_unchanged_contested :
    Run ⟨[], Database.create 1 .fresh (Disk.ofTables [⟨1⟩])⟩ (Rescan.filled.1 ++ Rescan.scans)
        Rescan.rescanned.2 ∧
      Rescan.rescanned.2.db.locks.isAsleep ⟨2⟩ = true ∧
      Rescan.rescanned.2.db.locks.isAsleep ⟨4⟩ = true ∧
      (Reading.of ⟨0⟩ ⟨1⟩ (Rescan.scanned.1 ++ Rescan.rewinding :: Rescan.rescanned.1)).rows =
        [(⟨⟨⟨1⟩, 0⟩, ⟨0⟩⟩, [7])] ∧
      (Reading.of ⟨0⟩ ⟨1⟩ (Rescan.scanned.1 ++ Rescan.rewinding :: Rescan.rescanned.1)).rows =
        (Reading.of ⟨0⟩ ⟨1⟩ Rescan.rescanned.1).rows := by
  have hmounted := (Disk.fresh_ofTables [⟨1⟩]).mounted
  have hfilled : Run ⟨[], Database.create 1 .fresh (Disk.ofTables [⟨1⟩])⟩ Rescan.filled.1
      Rescan.filled.2 := Moment.run_obeying _ _
  have hopening : Step Rescan.filled.2 (.command (.openCursor ⟨0⟩ ⟨1⟩ ⟨1⟩) (.done (.ok ())))
      Rescan.opened := .plain _ (by decide +kernel) rfl
  have hfirst : Run Rescan.opened Rescan.scanned.1 Rescan.scanned.2 := Moment.run_obeying _ _
  have hrewinding : Step Rescan.scanned.2 (.command (.rewindCursor ⟨0⟩) (.done (.ok ())))
      Rescan.rewound := .plain _ (by decide +kernel) rfl
  have hsecond : Run Rescan.rewound Rescan.rescanned.1 Rescan.rescanned.2 := Moment.run_obeying _ _
  have hrewinds : Command.OpensFor Rescan.scanned.2.db ⟨0⟩ ⟨1⟩ ⟨1⟩ (.rewindCursor ⟨0⟩) := by
    have hcursor : (Rescan.scanned.2.db.cursors.get? ⟨0⟩).map (fun c => (c.txn, c.table)) =
        some (⟨1⟩, ⟨1⟩) := by decide +kernel
    obtain ⟨cursor, hget, heq⟩ := Option.map_eq_some_iff.mp hcursor
    obtain ⟨htxn, htable⟩ := Prod.mk.inj heq
    exact .rewind cursor hget htxn htable
  have horderly₀ : OrderlyRun True Rescan.filled.1 :=
    Moment.orderlyRun_obeying (by simp [Command.IsOrderly]) _
  have horderly₁ : OrderlyRun True Rescan.scans := by
    refine orderlyRun_cons.mpr ⟨fun c answer heq => ?_, orderlyRun_append.mpr
      ⟨Moment.orderlyRun_obeying (by simp [Command.IsOrderly]) _,
        orderlyRun_cons.mpr ⟨fun c answer heq => ?_,
          Moment.orderlyRun_obeying (by simp [Command.IsOrderly]) _⟩⟩⟩
    · obtain rfl := (Occurrence.command.inj heq).1
      exact ⟨trivial, fun _ => trivial⟩
    · obtain rfl := (Occurrence.command.inj heq).1
      exact ⟨trivial, fun _ => trivial⟩
  have hrest : Run Rescan.filled.2 Rescan.scans Rescan.rescanned.2 :=
    (Run.single hopening).trans (hfirst.trans ((Run.single hrewinding).trans hsecond))
  obtain ⟨hm₀, hanchored₀⟩ := hfilled.anchored_of_create hmounted horderly₀ ⟨1⟩
  obtain ⟨-, new, hevents, -⟩ := hrest.anchored hm₀ horderly₁ hanchored₀
  rw [Ledger.of, ← List.foldl_append] at hevents
  have hquiet : Quiet ⟨1⟩ ⟨1⟩ ((Ledger.of Rescan.filled.1).events ++ new) := by
    rw [Ledger.of, ← hevents]
    decide +kernel
  refine ⟨hfilled.trans hrest, by decide +kernel, by decide +kernel, by decide +kernel, ?_⟩
  exact rescan_unchanged hmounted hfilled (by decide +kernel) .start hopening hfirst hrewinds
    hrewinding hsecond (orderlyRun_append.mpr ⟨horderly₀, horderly₁⟩) (by decide +kernel)
    (by decide +kernel) hevents (quiet_append.mp hquiet).2 (by decide +kernel)

end PagedHeap
