import PagedHeap.Proofs.Database.Steps
import PagedHeap.Proofs.Pool.Closing

/-!
# Atomicity and durability

As long as nobody flushes pages ahead of a commit and the log and the devices can be written, the
files hold at every moment just what the committed transactions did, in the order of their commits.
-/

namespace PagedHeap

open Database

/-! ## Empty files -/

namespace Disk

variable {d : Disk} {id : PageId}

/-- All files are empty, and can be found under their tables. -/
def Fresh (d : Disk) : Prop :=
  ∀ table s, d.store? table = some s →
    d.catalog.contains table = true ∧ s = { volume := Volume.mount table Medium.empty }

theorem Fresh.addTable (h : d.Fresh) (table : TableId) : (d.addTable table).Fresh := by
  intro u s hs
  rw [catalog_addTable, ← SortedSet.mem_iff, SortedSet.mem_insert]
  rcases store?_of_addTable hs with hs | ⟨rfl, rfl⟩
  · exact ⟨Or.inr (h u s hs).1, (h u s hs).2⟩
  · exact ⟨Or.inl rfl, rfl⟩

/-- Tables with empty files. -/
def ofTables (tables : List TableId) : Disk :=
  tables.foldl Disk.addTable ∅

theorem fresh_ofTables (tables : List TableId) : (ofTables tables).Fresh := by
  have go : ∀ (tables : List TableId) (d : Disk), d.Fresh →
      (tables.foldl Disk.addTable d).Fresh := by
    intro tables
    induction tables with
    | nil => exact fun d h => h
    | cons table rest ih => exact fun d h => ih _ (h.addTable table)
  exact go tables ∅ fun table s hs => nomatch hs

namespace Fresh

theorem mounted (h : d.Fresh) : d.Mounted := by
  intro table s hs
  obtain ⟨-, rfl⟩ := h table s hs
  exact ⟨rfl, rfl⟩

theorem pages_eq (h : d.Fresh) (table : TableId) : d.pages table = 0 := by
  rw [pages]
  split
  case h_1 s hs =>
    obtain ⟨-, rfl⟩ := h table s hs
    exact Nat.zero_div pageSize
  case h_2 => rfl

theorem image?_eq (h : d.Fresh) (id : PageId) : d.image? id = none := by
  cases himage : d.image? id with
  | none => rfl
  | some img =>
    have hlt := lt_pages_of_image? h.mounted himage
    rw [h.pages_eq] at hlt
    exact absurd hlt (Nat.not_lt_zero _)

end Fresh

/-- Reading all pages gives these rows and no others. -/
structure Holds (d : Disk) (rows : RowMap) : Prop where
  read : ∀ id img, d.image? id = some img → ∃ found, img.rows = .ok found ∧
    ∀ slot row, (slot, row) ∈ found ↔ rows ⟨id, slot⟩ = some row
  present : ∀ rid row, rows rid = some row → ∃ img, d.image? rid.page = some img

end Disk

/-! ## The books of a run -/

namespace Books

def note (b : Books) : Event → Books
  | .fetched _ _ => b
  | .changed t op => b.enter t [op]
  | .ended t true => b.close t
  | .ended t false => b.drop t

/-- The books that the events of a run make. -/
def of (events : List Event) : Books :=
  events.foldl note blank

theorem of_append (events new : List Event) : of (events ++ new) = new.foldl note (of events) :=
  List.foldl_append

theorem foldl_changed (b : Books) (t : TxnId) (ops : List RowOp) :
    (ops.map (.changed t)).foldl note b = b.enter t ops := by
  induction ops generalizing b with
  | nil => exact (b.enter_nil t).symm
  | cons op ops ih =>
    rw [List.map_cons, List.foldl_cons, ih, note, enter_enter]
    rfl

end Books

variable {d d' : Database} {l l' : Ledger} {m m' : Moment} {b : Books} {new : List Event}
  {upkeep : Prop}

theorem exclusive_owns (hm : m.Consistent l) : Pool.Exclusive m.db.owns :=
  fun id _ _ ht hu => (hm.sound.wellFormed id).eq_of_owns ht hu.1

/-- The books balance with the pool, and nothing stands in the way of the next commit. -/
structure InOrder (b : Books) (p : Pool) : Prop where
  steady : p.Steady
  tidy : p.Tidy
  balanced : p.Balanced b

/-- A step keeps the books in order, if they take its events down. -/
theorem Effect.inOrder (h : Effect False m.db m'.db new) (hm : m.Consistent l)
    (hm' : m'.Consistent l') (hroom : m'.db.pool.disk.Roomy) (hb : InOrder b m.db.pool) :
    InOrder (new.foldl Books.note b) m'.db.pool := by
  have htidy := h.tidy hm.coherent hb.tidy
  have hroom₀ := hroom.of_le h.pages_le
  cases h with
  | served t ops hmoves _ howns =>
    have hp := hm.coherent.mono howns
    rw [Books.foldl_changed]
    exact ⟨hmoves.steady hb.steady, htidy,
      hmoves.balanced hp (exclusive_owns hm') hroom hb.tidy hb.balanced⟩
  | fetched t page hmoves _ howns _ _ =>
    have hp := hm.coherent.mono howns
    have hbalanced := hmoves.balanced hp (exclusive_owns hm') hroom hb.tidy hb.balanced
    rw [Books.enter_nil] at hbalanced
    exact ⟨hmoves.steady hb.steady, htidy, hbalanced⟩
  | ended t committed hfinish hending _ =>
    obtain ⟨p, hon, hsteady, hclosing⟩ := Pool.settle_steady (m.db.locks.heldPages t)
      hm.coherent hb.steady hroom₀ (hb.balanced.closing t)
    cases hfinish with
    | settled result hsettle hfree =>
      obtain ⟨hresult, rfl⟩ := Prod.mk.inj (hon.symm.trans hsettle)
      obtain rfl := Except.ok.inj hresult
      exact ⟨hsteady, htidy, hclosing.close hfree⟩
    | forgotten hforget hfree =>
      rw [hforget] at hfree htidy ⊢
      refine ⟨hb.steady.forget _, htidy, hb.balanced.forget _ ?_ hfree⟩
      exact fun id hid page u hcached hdirty =>
        hm.mine t id hid u (hm.coherent.owned id page u hcached hdirty)

theorem inOrder_create (capacity : Nat) {journal : Journal}
    (hjournal : ∀ n duty, journal.verdicts n duty = none) {disk : Disk} (hdisk : disk.Fresh) :
    InOrder Books.blank (Database.create capacity journal disk).pool := by
  refine ⟨⟨hjournal, fun table s hs => ?_⟩, ⟨fun id page hcached => ?_, fun id img himage => ?_⟩,
    ⟨fun rid => ?_, fun u id page hcached => ?_, fun u op hop => ?_⟩⟩
  · obtain ⟨hcatalog, rfl⟩ := hdisk table s hs
    exact ⟨hcatalog, rfl⟩
  · cases hcached
  · have hnone : disk.image? id = some img := himage
    rw [hdisk.image?_eq] at hnone
    cases hnone
  · have hnone : (Database.create capacity journal disk).pool.disk.image? rid.page = none :=
      hdisk.image?_eq rid.page
    rw [Disk.cell, hnone]
    rfl
  · cases hcached
  · cases hop

/-- Files that are in order hold what the committed operations come to. -/
theorem InOrder.holds {p : Pool} (h : InOrder b p) :
    ∃ rows : RowMap, RowOp.replayRows? b.committed (fun _ => none) = some rows ∧
      p.disk.Holds rows := by
  refine ⟨p.disk.cell, RowOp.replayRows?_of_cells h.balanced.files, fun id img himage => ?_,
    fun rid row hcell => ?_⟩
  · obtain ⟨found, hrows, hmem⟩ := (h.tidy.filed id img himage).rows_cell
    refine ⟨found, hrows, fun slot row => ?_⟩
    rw [Disk.cell_of_image? himage]
    exact hmem slot row
  · obtain ⟨img, himage, -⟩ := Option.bind_eq_some_iff.mp hcell
    exact ⟨img, himage⟩

/-- Take any run over files that start empty, in which nobody flushes pages and the log and the
devices can be written, up to any moment at which page numbers are left.  The operations of the
transactions that have committed by then can be replayed, transaction by transaction in the order of
their commits, and what they come to is what can be read from the files. -/
theorem committed_rows_on_disk {capacity calls : Nat} {entries : List JournalEntry}
    {tables : List TableId} {occurrences : List Occurrence} {m : Moment}
    (hrun : Run ⟨[], Database.create capacity ⟨fun _ _ => none, calls, entries⟩
      (Disk.ofTables tables)⟩ occurrences m)
    (horderly : OrderlyRun False occurrences) (hroom : m.db.pool.disk.Roomy) :
    ∃ rows : RowMap,
      RowOp.replayRows? (Books.of (Ledger.of occurrences).events).committed (fun _ => none) =
        some rows ∧ m.db.pool.disk.Holds rows := by
  have hfresh := Disk.fresh_ofTables tables
  obtain ⟨-, hinOrder⟩ := hrun.induct hfresh.mounted horderly
    (P := fun l m => m.db.pool.disk.Roomy → InOrder (Books.of l.events) m.db.pool)
    (fun _ => inOrder_create capacity (fun _ _ => rfl) hfresh) fun l l' m m' hb hm hsequel hroom => by
      obtain ⟨new, hevents, heffect⟩ := hsequel.effect
      have hroom₀ := hroom.of_le heffect.pages_le
      rw [hevents, Books.of_append]
      exact heffect.inOrder hm hsequel.consistent hroom (hb hroom₀)
  exact (hinOrder hroom).holds

/-- One transaction commits, one aborts, and one goes on. -/
def threeInserts : List Command :=
  [.insert ⟨1⟩ ⟨1⟩ [7] .tracked, .commit ⟨1⟩, .insert ⟨2⟩ ⟨1⟩ [8] .tracked, .abort ⟨2⟩,
    .insert ⟨3⟩ ⟨1⟩ [9] .tracked]

/-- Of the three rows the file holds the first one. -/
theorem committed_rows_on_disk_threeInserts :
    ∃ occurrences m, ∃ rows : RowMap,
      Run ⟨[], Database.create 1 Journal.fresh (Disk.ofTables [⟨1⟩])⟩ occurrences m ∧
      OrderlyRun False occurrences ∧ m.db.pool.disk.Roomy ∧
      RowOp.replayRows? (Books.of (Ledger.of occurrences).events).committed (fun _ => none) =
        some rows ∧
      m.db.pool.disk.Holds rows ∧
      ∀ slot row, rows ⟨⟨⟨1⟩, 0⟩, slot⟩ = some row ↔ slot = ⟨0⟩ ∧ row = [7] := by
  obtain ⟨occurrences, hrun, hcommands⟩ :=
    run_performAll threeInserts (Database.create 1 Journal.fresh (Disk.ofTables [⟨1⟩]))
  have horderly : OrderlyRun False occurrences := by
    have hall : ∀ c ∈ threeInserts, c.IsOrderly ∧ ¬ c.Upkeep := by
      simp [threeInserts, Command.IsOrderly, Command.Upkeep]
    exact fun c answer hmem => hall c (hcommands c answer hmem)
  have hpages : (performAll threeInserts (Database.create 1 Journal.fresh
      (Disk.ofTables [⟨1⟩]))).2.pool.disk.stores.entries.all
        (fun entry => entry.2.volume.medium.length / pageSize < pageBound) = true := by
    decide +kernel
  have hfile : ((performAll threeInserts (Database.create 1 Journal.fresh
      (Disk.ofTables [⟨1⟩]))).2.pool.disk.image? ⟨⟨1⟩, 0⟩).map (fun img => img.rows.toOption) =
        some (some [(⟨0⟩, [7])]) := by
    decide +kernel
  generalize (performAll threeInserts (Database.create 1 Journal.fresh
    (Disk.ofTables [⟨1⟩]))).2 = d at hrun hpages hfile
  have hroom : d.pool.disk.Roomy := by
    intro table
    rw [Disk.pages]
    split
    case h_1 s hs =>
      exact of_decide_eq_true (List.all_eq_true.mp hpages (table, s) (SortedMap.get?_eq_some.mp hs))
    case h_2 => decide
  obtain ⟨rows, hreplay, hholds⟩ := committed_rows_on_disk hrun horderly hroom
  refine ⟨occurrences, _, rows, hrun, horderly, hroom, hreplay, hholds, fun slot row => ?_⟩
  obtain ⟨img, himage, himg⟩ := Option.map_eq_some_iff.mp hfile
  obtain ⟨found, hfound, hmem⟩ := hholds.read _ img himage
  rw [hfound] at himg
  obtain rfl : found = [(⟨0⟩, [7])] := Option.some.inj himg
  rw [← hmem]
  simp

end PagedHeap
