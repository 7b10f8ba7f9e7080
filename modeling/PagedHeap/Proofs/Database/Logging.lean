import PagedHeap.Proofs.Database.Allowed
import PagedHeap.Proofs.Page.History
import PagedHeap.Proofs.Pool.WriteAhead

/-!
# The discipline of the log

In a run that is not tampered with, whatever may fail in it, no page is written before its record
was appended and the log forced, and the record tells what the file held until then.
-/

namespace PagedHeap

open Database

variable {m : Moment}

/-- What holds of the log and the files after a run, and of every step that may come next. -/
structure LogDiscipline (start : Pool) (m : Moment) : Prop where
  /-- The run came down to deeds, none of which wrote a page that had not been logged. -/
  run : ∃ ds, Pool.Course (Pool.Logs fun _ _ => True) start ds m.db.pool
  steps : ∀ o m', Step m o m' → m.Allows False o → m'.db.pool.disk.Roomy →
    ∃ ds, Pool.Course (Pool.Logs (m.Loses False o)) m.db.pool ds m'.db.pool
  clean : ∀ id page, m.db.pool.cachedPage? id = some page → page.dirtier = none →
    m.db.pool.disk.image? id = some page.image
  dirty : ∀ id page t, m.db.pool.cachedPage? id = some page → page.dirtier = some t →
    m.db.pool.disk.image? id = some page.baseline

theorem faithful_create (capacity : Nat) (journal : Journal) {disk : Disk} (hdisk : disk.Mounted) :
    (Database.create capacity journal disk).pool.Faithful where
  housed := (stable_create capacity journal (Or.inr hdisk)).housed
  underlies _ _ hcached := nomatch hcached

/-- Take any run that is not tampered with over files that stores keep, up to any moment at which
page numbers are left. -/
theorem writes_logged_ahead {capacity : Nat} {journal : Journal} {disk : Disk}
    {occurrences : List Occurrence} (hdisk : disk.Mounted)
    (hrun : AllowedRun False ⟨[], Database.create capacity journal disk⟩ occurrences m)
    (hroom : m.db.pool.disk.Roomy) :
    LogDiscipline (Database.create capacity journal disk).pool m := by
  have hstart : Moment.Stable False _ := stable_create capacity journal (Or.inr hdisk)
  have hstable := hrun.stable hstart
  obtain ⟨ds, hcourse⟩ := hrun.course hstart
  obtain ⟨hm, hlogs⟩ := hcourse.logs (faithful_create capacity journal hdisk) hroom
  constructor
  case run => exact ⟨ds, hlogs⟩
  case steps =>
    intro o m' hstep hallows hroom'
    obtain ⟨ds', hcourse', -⟩ := (hstep.progressed hstable hallows).pool.course fun _ _ => id
    exact ⟨ds', (hcourse'.logs hm hroom').2⟩
  case clean =>
    intro id page hcached hclean
    have himage := hm.underlies id page hcached
    rwa [Page.underlying, hclean] at himage
  case dirty =>
    intro id page t hcached hdirty
    have himage := hm.underlies id page hcached
    rwa [Page.underlying, hdirty] at himage

/-- A page is flushed between two changes, and then committed. -/
def flushedBetween : List Command :=
  [.insert ⟨1⟩ ⟨1⟩ [7] .tracked, .flushAll, .insert ⟨1⟩ ⟨1⟩ [8] .tracked, .commit ⟨1⟩]

/-- It was written twice, each time behind its record and a force. -/
theorem writes_logged_ahead_flushedBetween :
    ∃ occurrences m,
      AllowedRun False ⟨[], Database.create 1 .fresh ((∅ : Disk).addTable ⟨1⟩)⟩ occurrences m ∧
      m.db.pool.disk.Roomy ∧
      LogDiscipline (Database.create 1 .fresh ((∅ : Disk).addTable ⟨1⟩)).pool m ∧
      m.db.pool.journal.entries.length = 6 := by
  have hdisk := Disk.mounted_empty.addTable ⟨1⟩
  have htame : ∀ c ∈ flushedBetween, c.IsTame := by simp [flushedBetween, Command.IsTame]
  obtain ⟨occurrences, hallowed⟩ := AllowedRun.of_performAll False
    (Database.create 1 .fresh ((∅ : Disk).addTable ⟨1⟩)) htame
  have hpages : ∀ entry ∈ (performAll flushedBetween (Database.create 1 .fresh
      ((∅ : Disk).addTable ⟨1⟩))).2.pool.disk.stores.entries,
      entry.2.volume.medium.length / pageSize < pageBound := by
    decide +kernel
  have hentries : (performAll flushedBetween (Database.create 1 .fresh
      ((∅ : Disk).addTable ⟨1⟩))).2.pool.journal.entries.length = 6 := by
    decide +kernel
  generalize (performAll flushedBetween (Database.create 1 .fresh
    ((∅ : Disk).addTable ⟨1⟩))).2 = d at hallowed hpages hentries
  have hroom := Disk.roomy_of_all hpages
  exact ⟨occurrences, _, hallowed, hroom, writes_logged_ahead hdisk hallowed hroom, hentries⟩

/-! ## When the page numbers are used up

The pages are counted in 32 bits.  In a file of 2^32 pages none counts, and the page that is
appended next falls on the first one. -/

namespace Brimming

/-- A file of 2^32 pages, of which the first has a row. -/
def store : Store where
  volume := Volume.mount ⟨1⟩
    ((Medium.empty.resize (pageBound * pageSize)).writeBlock 0 (Edit.imageAfter [.insert [7]]))

def disk : Disk :=
  ((∅ : Disk).put ⟨1⟩ store).addTable ⟨1⟩

def start : Database :=
  Database.create 4 .fresh disk

/-- The rows in the bytes of the first page, whether or not the page counts. -/
def firstRows (d : Disk) : Option (List (SlotId × Row)) := do
  let s ← d.store? ⟨1⟩
  (s.volume.medium.block 0).rows.toOption

theorem mounted_disk : disk.Mounted :=
  (Disk.mounted_empty.put (s := store) rfl rfl).addTable ⟨1⟩

end Brimming

open Brimming in
/-- An insertion blanks a page that was there, and the log is told nothing of it. -/
theorem page_blanked_unlogged :
    ∃ (disk : Disk) (occurrences : List Occurrence) (m : Moment), disk.Mounted ∧
      AllowedRun False ⟨[], Database.create 4 .fresh disk⟩ occurrences m ∧
      m.db.pool.journal.entries = [] ∧ 0 < disk.pages ⟨1⟩ ∧
      firstRows disk = some [(⟨0⟩, [7])] ∧ firstRows m.db.pool.disk = some [] := by
  have htame : ∀ c ∈ [Command.insert ⟨1⟩ ⟨1⟩ [8] .tracked], c.IsTame := by simp [Command.IsTame]
  obtain ⟨occurrences, hallowed⟩ := AllowedRun.of_performAll False start htame
  refine ⟨disk, occurrences, _, mounted_disk, hallowed, ?_, ?_, ?_, ?_⟩
  all_goals decide +kernel

end PagedHeap
