import Mathlib.Logic.Function.Basic
import PagedHeap.Proofs.Database.Answers
import PagedHeap.Proofs.Database.Isolation
import PagedHeap.Proofs.Database.Legs
import PagedHeap.Proofs.Pool.Records

/-!
# Scanning

A scan holds every page that it has passed, and what it has handed out, together with the rows that
it still keeps, are the records of these pages.  So when it comes to its end it has handed out the
records of the table.
-/

namespace PagedHeap

open Database

/-! ## What is read -/

inductive Standing where
  | going
  | complete
  /-- The scan failed, or its cursor was opened, rewound or closed. -/
  | broken
  deriving DecidableEq

/-- What an observer has seen of a scan. -/
structure Reading where
  rows : List (RecordId × Row)
  standing : Standing
  /-- A call of the scan fell asleep, and has not come to its end. -/
  asleep : Bool
  deriving DecidableEq

namespace Reading

def blank : Reading := ⟨[], .going, false⟩

def spoil (r : Reading) : Reading :=
  { r with standing := .broken }

def take (r : Reading) : Except Error Reply → Reading
  | .ok (.row (some row)) => { r with rows := r.rows ++ [row] }
  | .ok (.row none) => { r with standing := .complete }
  | .ok (.rest rows none) => { r with rows := r.rows ++ rows, standing := .complete }
  | _ => r.spoil

/-- Takes note of the turn of a call of the scan. -/
def after (r : Reading) : Option Outcome → Reading
  | none => { r with asleep := true }
  | some (.ok result) => { r with asleep := false }.take result
  | some (.error _) => r.spoil

def answered (r : Reading) : Answer → Reading
  | .asleep => r.after none
  | .replied result => r.after (some (.ok result))
  | .faulted fault => r.after (some (.error fault))
  | _ => r

end Reading

/-- The command was put off. -/
def Answer.isBusy : Answer → Bool
  | .busy => true
  | _ => false

theorem Answer.isBusy_eq_false {answer : Answer} (h : answer ≠ .busy) : answer.isBusy = false := by
  cases answer with
  | busy => exact absurd rfl h
  | _ => rfl

namespace Reading

/-- Takes note of what happens to a cursor that a transaction scans with. -/
def observe (id : CursorId) (t : TxnId) (r : Reading) : Occurrence → Reading
  | .command c answer =>
    if c.scanned? = some id then r.answered answer
    else if c.reset? = some id ∧ answer.isBusy = false then r.spoil
    else r
  | .resumed u outcome => if u = t ∧ r.asleep then r.after outcome else r

def note (id : CursorId) (t : TxnId) (r : Reading) (o : Occurrence) : Reading :=
  if r.standing = .going then r.observe id t o else r

/-- What is seen of a scan from the opening of its cursor on. -/
def of (id : CursorId) (t : TxnId) (occurrences : List Occurrence) : Reading :=
  occurrences.foldl (note id t) blank

theorem answered_answerOf (r : Reading) (o : Option Outcome) :
    r.answered (answerOf o) = r.after o := by
  rcases o with _ | (fault | result) <;> rfl

variable {id : CursorId} {t : TxnId} {r : Reading} {o : Occurrence}

theorem note_of_going (h : r.standing = .going) : r.note id t o = r.observe id t o :=
  if_pos h

theorem note_of_not_going (h : r.standing ≠ .going) : r.note id t o = r :=
  if_neg h

theorem of_snoc (id : CursorId) (t : TxnId) (occurrences : List Occurrence) (o : Occurrence) :
    of id t (occurrences ++ [o]) = (of id t occurrences).note id t o := by
  rw [of, List.foldl_append]
  rfl

end Reading

/-! ## Pages that were passed -/

/-- The first pages of a table are held by a transaction, and show these images. -/
structure Covered (t : TxnId) (table : TableId) (images : Nat → Image) (n : Nat) (d : Database) :
    Prop where
  held : ∀ i < n, d.holds (table.page i) t
  shown : ∀ i < n, d.pool.Shows (table.page i) (images i)

/-- Where a scan is: it has read the pages in front of its cursor, and has yet to hand out what is
pending. -/
structure Reached (t : TxnId) (table : TableId) (rows : List (RecordId × Row)) (cursor : Cursor)
    (d : Database) : Prop where
  txn_eq : cursor.txn = t
  table_eq : cursor.table = table
  isOpen : cursor.isOpen = true
  next_le : cursor.next.toNat ≤ d.pool.disk.pages table
  covers : ∃ images, Covered t table images cursor.next.toNat d ∧
    rows ++ cursor.pending = recordsOf table images cursor.next.toNat

/-- A scan has handed out the records of its table, and its cursor is closed. -/
structure Scanned (id : CursorId) (t : TxnId) (table : TableId) (rows : List (RecordId × Row))
    (d : Database) : Prop where
  closed : ∃ cursor, d.cursors.get? id = some cursor ∧ cursor.txn = t ∧ cursor.isOpen = false
  covers : ∃ images, Covered t table images (d.pool.disk.pages table) d ∧
    rows = recordsOf table images (d.pool.disk.pages table)

/-- The rows that a call of a scan has gathered and not handed out. -/
def Harvest.rows : Harvest → List (RecordId × Row)
  | .next => []
  | .rest rows => rows

/-- Takes over the rows that the cursor has read. -/
def Harvest.gather (harvest : Harvest) (pending : List (RecordId × Row)) : Harvest :=
  match harvest with
  | .next => .next
  | .rest rows => .rest (rows ++ pending)

/-- The call reads the next page for a scan. -/
def Reads (id : CursorId) (t : TxnId) (table : TableId) (rows : List (RecordId × Row)) (c : Call)
    (d : Database) : Prop :=
  ∃ cursor harvest, c = ⟨t, cursor.nextPage, .shared, .scan id harvest⟩ ∧
    d.cursors.get? id = some cursor ∧ cursor.pending = [] ∧
    cursor.next.toNat < d.pool.disk.pages table ∧ cursor.next.toNat + 1 < UInt32.size ∧
    Reached t table (rows ++ harvest.rows) cursor d

/-- How a turn of a scan ends, by what was read before it. -/
inductive Reading.Ends (id : CursorId) (t : TxnId) (table : TableId) (r : Reading) :
    Option Outcome → Database → Prop
  | sleeps {c : Call} {d : Database} (hcall : d.calls.get? t = some c)
      (hreads : Reads id t table r.rows c d) : Ends id t table r none d
  | yields {row : RecordId × Row} {cursor : Cursor} {d : Database}
      (hget : d.cursors.get? id = some cursor)
      (hreached : Reached t table (r.rows ++ [row]) cursor d) :
      Ends id t table r (some (.ok (.ok (.row (some row))))) d
  | completes {outcome : Outcome} {d : Database}
      (hstanding : (r.after (some outcome)).standing = .complete)
      (hscanned : Scanned id t table (r.after (some outcome)).rows d) :
      Ends id t table r (some outcome) d
  | breaks {outcome : Outcome} {d : Database}
      (hstanding : (r.after (some outcome)).standing = .broken) : Ends id t table r (some outcome) d

variable {id : CursorId} {t u : TxnId} {table : TableId} {r : Reading} {d d' : Database}
  {images : Nat → Image} {n : Nat} {cursor : Cursor} {rows : List (RecordId × Row)}
  {harvest : Harvest} {c : Call} {cmd : Option Command} {events new : List Event}
  {ops : List RowOp} {upkeep : Prop}

theorem Harvest.gather_rows (h : harvest = .next → cursor.pending = []) :
    (harvest.gather cursor.pending).rows = harvest.rows ++ cursor.pending := by
  cases harvest with
  | next => simp [gather, Harvest.rows, h rfl]
  | rest rows => rfl

namespace Covered

theorem zero (t : TxnId) (table : TableId) (images : Nat → Image) (d : Database) :
    Covered t table images 0 d :=
  ⟨fun i hi => absurd hi (Nat.not_lt_zero i), fun i hi => absurd hi (Nat.not_lt_zero i)⟩

/-- What a transaction does without operating on rows keeps the pages that it has passed. -/
theorem acted (h : Covered t table images n d) (hp : Pool.Coherent d.owns d.pool)
    (hacted : Acted u d d' []) : Covered t table images n d' where
  held i hi := by
    rw [hacted.holds_eq]
    exact h.held i hi
  shown i hi := by
    obtain ⟨img, hreplay, hshows⟩ := hacted.moves.shows hp (h.shown i hi)
    obtain rfl : images i = img := Option.some.inj hreplay
    exact hshows

theorem snoc (h : Covered t table images n d) {img : Image} (hheld : d.holds (table.page n) t)
    (hshows : d.pool.Shows (table.page n) img) :
    Covered t table (Function.update images n img) (n + 1) d where
  held i hi := by
    rcases Nat.lt_succ_iff_lt_or_eq.mp hi with hlt | rfl
    · exact h.held i hlt
    · exact hheld
  shown i hi := by
    rcases Nat.lt_succ_iff_lt_or_eq.mp hi with hlt | rfl
    · rw [Function.update_of_ne (Nat.ne_of_lt hlt)]
      exact h.shown i hlt
    · rwa [Function.update_self]

theorem of_cursors {cursors : SortedMap CursorId Cursor} (h : Covered t table images n d) :
    Covered t table images n { d with cursors } :=
  ⟨h.held, h.shown⟩

end Covered

theorem recordsOf_update (table : TableId) (images : Nat → Image) (n : Nat) (img : Image) :
    recordsOf table (Function.update images n img) (n + 1) =
      recordsOf table images n ++ img.records (table.page n) := by
  rw [recordsOf_succ, Function.update_self]
  congr 1
  exact recordsOf_congr fun i hi => Function.update_of_ne (Nat.ne_of_lt hi) _ _

namespace Reached

theorem acted (h : Reached t table rows cursor d) (hp : Pool.Coherent d.owns d.pool)
    (hacted : Acted u d d' []) : Reached t table rows cursor d' := by
  obtain ⟨images, hcovered, hrows⟩ := h.covers
  exact ⟨h.txn_eq, h.table_eq, h.isOpen, Nat.le_trans h.next_le (hacted.moves.pages_le table),
    images, hcovered.acted hp hacted, hrows⟩

/-- The next page is read, and its records are pending. -/
theorem accept (h : Reached t table rows cursor d)
    (hnext : cursor.next.toNat < d.pool.disk.pages table)
    (hlast : cursor.next.toNat + 1 < UInt32.size) {img : Image}
    (hheld : d.holds cursor.nextPage t) (hshows : d.pool.Shows cursor.nextPage img) :
    Reached t table rows (cursor.accept (img.records cursor.nextPage)) d := by
  have hpage : cursor.nextPage = table.page cursor.next.toNat := by
    rw [TableId.page_toNat, ← h.table_eq]
    rfl
  have hsucc : (cursor.next + 1).toNat = cursor.next.toNat + 1 := by
    rw [UInt32.toNat_add]
    exact Nat.mod_eq_of_lt hlast
  obtain ⟨images, hcovered, hrows⟩ := h.covers
  rw [hpage] at hheld hshows ⊢
  refine ⟨h.txn_eq, h.table_eq, h.isOpen, ?_, Function.update images cursor.next.toNat img, ?_, ?_⟩
  · change (cursor.next + 1).toNat ≤ _
    rw [hsucc]
    exact hnext
  · change Covered t table _ (cursor.next + 1).toNat d
    rw [hsucc]
    exact hcovered.snoc hheld hshows
  · change rows ++ (cursor.pending ++ _) = recordsOf table _ (cursor.next + 1).toNat
    rw [hsucc, recordsOf_update, ← hrows, List.append_assoc]

end Reached

/-! ## How a scan goes on -/

/-- A row that is pending is handed out. -/
theorem scanFrom_pending (hopen : cursor.isOpen = true) {row : RecordId × Row}
    {rest : List (RecordId × Row)} (hpending : cursor.pending = row :: rest) (d : Database) :
    (scanFrom id cursor .next).on d = (.ok (.ok (.finished (.row (some row)))),
      d.setCursor id { cursor with pending := rest }) := by
  unfold scanFrom
  simp only [hopen, hpending, if_true, Act.on_bind, Act.on_modify, Act.on_pure]

theorem on_endScan (id : CursorId) (cursor : Cursor) (harvest : Harvest) (failure : Option Error)
    (d : Database) : (endScan id cursor harvest failure).on d =
      (.ok ((harvested harvest failure).map .finished), d.setCursor id cursor.close) := by
  simp only [endScan, Act.on_bind, Act.on_modify, Act.on_ofResult]
  cases harvested harvest failure with
  | error e => rfl
  | ok reply => rfl

theorem on_wantPage (id : CursorId) (cursor : Cursor) (harvest : Harvest) (d : Database) :
    (wantPage id cursor harvest).on d =
      match d.pool.disk.count cursor.nextPage with
      | .error e => (.ok ((harvested harvest (some e)).map .finished), d.setCursor id cursor.close)
      | .ok count =>
        if count ≤ cursor.next then
          (.ok ((harvested harvest none).map .finished), d.setCursor id cursor.close)
        else
          (.ok (.ok (.wants ⟨cursor.txn, cursor.nextPage, .shared, .scan id harvest⟩)),
            d.setCursor id cursor) := by
  simp only [wantPage, Act.on_bind, Act.on_get]
  cases d.pool.disk.count cursor.nextPage with
  | error e => exact on_endScan id cursor harvest (some e) d
  | ok count =>
    simp only
    split
    case isTrue => exact on_endScan id cursor harvest none d
    case isFalse => rfl

/-- Otherwise the next page is wanted, or the scan is at its end, or its store fails. -/
theorem scanFrom_onward (hopen : cursor.isOpen = true)
    (hpending : harvest = .next → cursor.pending = []) (d : Database) :
    (scanFrom id cursor harvest).on d =
      match d.pool.disk.count cursor.nextPage with
      | .error e => (.ok ((harvested (harvest.gather cursor.pending) (some e)).map .finished),
          d.setCursor id cursor.close)
      | .ok count =>
        if count ≤ cursor.next then
          (.ok ((harvested (harvest.gather cursor.pending) none).map .finished),
            d.setCursor id cursor.close)
        else
          (.ok (.ok (.wants ⟨cursor.txn, cursor.nextPage, .shared,
              .scan id (harvest.gather cursor.pending)⟩)),
            d.setCursor id { cursor with pending := [] }) := by
  obtain ⟨txn, table, next, pending, isOpen⟩ := cursor
  obtain rfl : isOpen = true := hopen
  unfold scanFrom
  simp only [if_true]
  cases harvest with
  | next =>
    obtain rfl : pending = [] := hpending rfl
    exact on_wantPage id _ .next d
  | rest gathered => exact on_wantPage id _ (.rest (gathered ++ pending)) d

theorem harvested_none (harvest : Harvest) : ∃ reply, harvested harvest none = .ok reply ∧
    ∀ r : Reading, (r.after (some (.ok (.ok reply)))).standing = .complete ∧
      (r.after (some (.ok (.ok reply)))).rows = r.rows ++ harvest.rows := by
  cases harvest with
  | next => exact ⟨_, rfl, fun r => ⟨rfl, (List.append_nil _).symm⟩⟩
  | rest rows => exact ⟨_, rfl, fun r => ⟨rfl, rfl⟩⟩

/-- A scan goes on from where it is. -/
theorem lands_scanFrom (hreached : Reached t table (r.rows ++ harvest.rows) cursor d) :
    Lands (Reads id t table r.rows)
      (fun outcome d' => d'.pool.disk.pages table < pageBound →
        r.Ends id t table (some outcome) d')
      ((scanFrom id cursor harvest).on d) := by
  by_cases hhand : harvest = .next ∧ cursor.pending ≠ []
  · obtain ⟨rfl, hsome⟩ := hhand
    obtain ⟨row, rest, hpending⟩ := List.exists_cons_of_ne_nil hsome
    rw [scanFrom_pending hreached.isOpen hpending]
    refine .finished fun _ => .yields (SortedMap.get?_insert_self _ _ _) ?_
    obtain ⟨images, hcovered, hrows⟩ := hreached.covers
    refine ⟨hreached.txn_eq, hreached.table_eq, hreached.isOpen, hreached.next_le, images,
      hcovered.of_cursors, ?_⟩
    rw [← hrows, hpending]
    simp [Harvest.rows]
  · have hnone : harvest = .next → cursor.pending = [] := fun hnext =>
      Classical.byContradiction fun hsome => hhand ⟨hnext, hsome⟩
    have hgather := Harvest.gather_rows hnone
    rw [scanFrom_onward hreached.isOpen hnone]
    obtain ⟨images, hcovered, hrows⟩ := hreached.covers
    rw [List.append_assoc, ← hgather] at hrows
    split
    case h_1 e _ =>
      cases harvest with
      | next => exact .refused fun _ => .breaks rfl
      | rest gathered => exact .finished fun _ => .breaks rfl
    case h_2 count hcount =>
    obtain rfl : count = d.pool.disk.pageCount cursor.table := Disk.count_eq_ok hcount
    split
    case isTrue hend =>
      obtain ⟨reply, hreply, hafter⟩ := harvested_none (harvest.gather cursor.pending)
      rw [hreply]
      refine .finished fun hroom => .completes (hafter r).1 ?_
      have hcount : d.pool.disk.pages table ≤ cursor.next.toNat := by
        have hroom : d.pool.disk.pages table < pageBound := hroom
        have hle := UInt32.le_iff_toNat_le.mp hend
        rwa [hreached.table_eq, Disk.toNat_pageCount hroom] at hle
      have hall : cursor.next.toNat = d.pool.disk.pages table :=
        Nat.le_antisymm hreached.next_le hcount
      rw [hall] at hcovered hrows
      refine ⟨⟨cursor.close, SortedMap.get?_insert_self _ _ _, hreached.txn_eq, rfl⟩, images,
        hcovered.of_cursors, ?_⟩
      rw [(hafter r).2]
      exact hrows
    case isFalse hmore =>
      refine .wants ⟨{ cursor with pending := [] }, harvest.gather cursor.pending, ?_,
        SortedMap.get?_insert_self _ _ _, rfl, ?_, ?_, hreached.txn_eq, hreached.table_eq,
        hreached.isOpen, hreached.next_le, images, hcovered.of_cursors, ?_⟩
      · rw [hreached.txn_eq]
        rfl
      · have hlt := UInt32.lt_iff_toNat_lt.mp (UInt32.not_le.mp hmore)
        rw [hreached.table_eq] at hlt
        exact Nat.lt_of_lt_of_le hlt (Disk.toNat_pageCount_le _ _)
      · have hlt := UInt32.lt_iff_toNat_lt.mp (UInt32.not_le.mp hmore)
        exact Nat.lt_of_le_of_lt hlt (UInt32.toNat_lt_size _)
      · rw [hrows, List.append_nil]

/-- The page that a scan reads has the rows that it shows. -/
theorem scanHere_shown (hp : Pool.Coherent d.owns d.pool)
    (hget : d.cursors.get? id = some cursor) (harvest : Harvest) :
    (∃ p img, (scanHere c id harvest).on d =
        (scanFrom id (cursor.accept (img.records c.page)) harvest).on (d.withPool p) ∧
      Acted c.txn d (d.withPool p) [] ∧ p.Shows c.page img) ∨
    (∃ e d', (scanHere c id harvest).on d = (.ok (.error e), d')) ∨
    ∃ fault d', (scanHere c id harvest).on d = (.error fault, d') := by
  obtain ⟨p, hacted, -, ⟨f, hon, hf⟩ | ⟨e, hon⟩⟩ := fetch_cases hp c.txn c.page
  case inr =>
    refine Or.inr (Or.inl ⟨e, d.withPool p, ?_⟩)
    simp only [scanHere, Act.on_bind, hon]
  have hid : (p.page f).id = c.page := ((hacted.coherent hp).framed c.page f hf).2
  have hcursor : (d.withPool p).cursors.get? id = some cursor := hget
  have hpool : (d.withPool p).pool = p := rfl
  simp only [scanHere, Act.on_bind, hon, Act.on_get, Act.on_checked, hpool]
  cases hrows : (p.page f).rows with
  | error fault => exact Or.inr (Or.inr ⟨fault, d.withPool p, rfl⟩)
  | ok rows =>
    refine Or.inl ⟨p, (p.page f).image, ?_, hacted,
      Or.inl (Pool.content?_of_cached (Buffer.cachedPage?_of_cached hf))⟩
    have hrecords : rows = (p.page f).image.records c.page := hid ▸ Page.records_of_rows hrows
    simp only [Except.map, hcursor, hrecords]

/-- A scan that fails hands out nothing more. -/
theorem ends_fail (r : Reading) (d : Database) (page : PageId) (harvest : Harvest) (e : Error) :
    let c : Call := ⟨t, page, .shared, .scan id harvest⟩
    r.Ends id t table (some (.ok (d.fail c e).1)) (d.fail c e).2 := by
  cases harvest with
  | next => exact .breaks rfl
  | rest rows => exact .breaks rfl

/-- Every leg of a scan keeps what it has read. -/
theorem scan_kept (cmd : Option Command) (id : CursorId) (t : TxnId) (table : TableId)
    (r : Reading) : KeptByLegs cmd (Reads id t table r.rows)
      fun o d => d.pool.disk.pages table < pageBound → r.Ends id t table o d where
  asks c d locks hreads hholds _ := by
    obtain ⟨cursor, harvest, hc, hget, hpending, hnext, hlast, hreached⟩ := hreads
    obtain ⟨images, ⟨hheld, hshown⟩, hrows⟩ := hreached.covers
    exact ⟨cursor, harvest, hc, hget, hpending, hnext, hlast, hreached.txn_eq, hreached.table_eq,
      hreached.isOpen, hreached.next_le, images, ⟨fun i hi => hholds _ _ (hheld i hi), hshown⟩,
      hrows⟩
  endless c d hreads _ := .breaks rfl
  sleeps c d hreads _ := by
    obtain ⟨cursor, harvest, rfl, hget, hpending, hnext, hlast, hreached⟩ := hreads
    obtain ⟨images, ⟨hheld, hshown⟩, hrows⟩ := hreached.covers
    exact .sleeps (SortedMap.get?_insert_self _ _ _)
      ⟨cursor, harvest, rfl, hget, hpending, hnext, hlast, hreached.txn_eq, hreached.table_eq,
        hreached.isOpen, hreached.next_le, images, ⟨hheld, hshown⟩, hrows⟩
  deadlock c d hreads _ := by
    obtain ⟨cursor, harvest, rfl, -⟩ := hreads
    exact ends_fail r d _ harvest _
  granted c d hreads hgranted := by
    obtain ⟨cursor, harvest, rfl, hget, hpending, hnext, hlast, hreached⟩ := hreads
    rcases scanHere_shown hgranted.coherent hget harvest with
      ⟨p, img, hon, hacted, hshows⟩ | ⟨e, d', hon⟩ | ⟨fault, d', hon⟩
    case inr.inl =>
      rw [proceed, hon]
      exact .refused fun _ => ends_fail r d' _ harvest e
    case inr.inr =>
      rw [proceed, hon]
      exact .fault fun _ => .breaks rfl
    have haccepted : Reached t table (r.rows ++ harvest.rows)
        (cursor.accept (img.records cursor.nextPage)) (d.withPool p) := by
      refine (hreached.acted hgranted.coherent hacted).accept ?_ hlast ?_ hshows
      · exact Nat.lt_of_lt_of_le hnext (hacted.moves.pages_le table)
      · rw [hacted.holds_eq]
        exact hgranted.holds
    rw [proceed, hon]
    refine (lands_scanFrom haccepted).mono (fun _ _ h => h) fun outcome d' hends => ?_
    rcases outcome with fault | e | reply
    · exact fun _ => .breaks rfl
    · exact fun _ => ends_fail r d' _ harvest e
    · exact hends

end PagedHeap
