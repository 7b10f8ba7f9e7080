import PagedHeap.Journal
import PagedHeap.Proofs.Act

/-!
# What the log answers

The log is called twice for a page, to append its record and to force it, and each call goes by the
verdict that stands for it.
-/

namespace PagedHeap

namespace Journal

variable {j j' : Journal} {e : JournalEntry} {r : UpdateRecord}

/-- What the log says to the next call. -/
def verdict? (j : Journal) (duty : LogDuty) : Option Error :=
  j.verdicts j.calls duty

/-- The log was called once more. -/
def called (j : Journal) : Journal :=
  { j with calls := j.calls + 1 }

/-- Logs a page: what the log refuses it for, if it does, and the journal that this leaves. -/
def log (j : Journal) (r : UpdateRecord) : Option Error × Journal :=
  match j.verdict? .append with
  | some e => (some e, j.called)
  | none =>
    let j := j.called.record (.update r)
    match j.verdict? .force with
    | some e => (some e, j.called)
    | none => (none, j.called.record .force)

/-- The record that goes to the log for a page. -/
def recordOf (t : TxnId) (page : Page) : UpdateRecord :=
  ⟨t, page.id, page.baseline, page.image⟩

/-- Logs a page if somebody dirtied it. -/
def logged (j : Journal) (page : Page) : Option Error × Journal :=
  match page.dirtier with
  | some t => j.log (recordOf t page)
  | none => (none, j)

theorem logged_of_dirty {t : TxnId} {page : Page} (hdirty : page.dirtier = some t) :
    j.logged page = j.log (recordOf t page) := by
  rw [logged, hdirty]

theorem on_append (t : TxnId) (page : Page) (j : Journal) :
    (append t page).on j = match j.verdict? .append with
      | some e => (.ok (.error e), j.called)
      | none => (.ok (.ok ()), j.called.record (.update (recordOf t page))) := by
  simp only [append, call, verdict?, called, Act.on_bind, Act.on_get, Act.on_set]
  cases j.verdicts j.calls .append with
  | some e => rfl
  | none => rfl

theorem on_force (j : Journal) :
    force.on j = match j.verdict? .force with
      | some e => (.ok (.error e), j.called)
      | none => (.ok (.ok ()), j.called.record .force) := by
  simp only [force, call, verdict?, called, Act.on_bind, Act.on_get, Act.on_set]
  cases j.verdicts j.calls .force with
  | some e => rfl
  | none => rfl

/-! ## What logging leaves -/

/-- The journal goes on, but no page was written to its file. -/
def Unwritten (j j' : Journal) : Prop :=
  ∃ new, j'.entries = j.entries ++ new ∧ ∀ id img, JournalEntry.written id img ∉ new

theorem unwritten_of_eq (h : j'.entries = j.entries) : j.Unwritten j' :=
  ⟨[], h.trans (List.append_nil _).symm, fun _ _ => List.not_mem_nil⟩

/-- The log was called, at most. -/
structure Grows (j j' : Journal) : Prop where
  verdicts : j'.verdicts = j.verdicts
  unwritten : j.Unwritten j'

theorem Grows.refl (j : Journal) : j.Grows j :=
  ⟨rfl, unwritten_of_eq rfl⟩

theorem Grows.called (h : j.Grows j') : j.Grows j'.called :=
  ⟨h.verdicts, h.unwritten⟩

theorem Grows.record (h : j.Grows j') (he : ∀ id img, e ≠ .written id img) :
    j.Grows (j'.record e) := by
  obtain ⟨new, hentries, hnew⟩ := h.unwritten
  refine ⟨h.verdicts, new ++ [e], ?_, fun id img hmem => ?_⟩
  · rw [Journal.record, hentries, List.append_assoc]
  · rcases List.mem_append.mp hmem with hmem | hmem
    · exact hnew id img hmem
    · exact he id img (List.mem_singleton.mp hmem).symm

theorem grows_log (j : Journal) (r : UpdateRecord) : j.Grows (j.log r).2 := by
  have happended : j.Grows (j.called.record (.update r)) := (Grows.refl j).called.record nofun
  rw [log]
  split
  · exact (Grows.refl j).called
  · simp only
    split
    · exact happended.called
    · exact happended.called.record nofun

theorem grows_logged (j : Journal) (page : Page) : j.Grows (j.logged page).2 := by
  rw [logged]
  split
  · exact grows_log j _
  · exact Grows.refl j

/-- A record that the log takes is appended, and then the log is forced. -/
theorem entries_log (h : (j.log r).1 = none) :
    (j.log r).2.entries = j.entries ++ [.update r, .force] := by
  rw [log] at h ⊢
  split at h
  case h_1 => cases h
  case h_2 =>
    simp only at h ⊢
    split at h
    case h_1 => cases h
    case h_2 =>
      exact List.append_assoc ..

/-- A page is logged by two calls that succeed, one after the other. -/
theorem on_append_force (t : TxnId) (page : Page) (h : (j.log (recordOf t page)).1 = none) :
    ∃ j₁, (append t page).on j = (.ok (.ok ()), j₁) ∧
      force.on j₁ = (.ok (.ok ()), (j.log (recordOf t page)).2) := by
  cases happend : j.verdict? .append with
  | some e => simp [log, happend] at h
  | none =>
    cases hforce : (j.called.record (.update (recordOf t page))).verdict? .force with
    | some e => simp [log, happend, hforce] at h
    | none =>
      refine ⟨j.called.record (.update (recordOf t page)), by rw [on_append, happend], ?_⟩
      simp only [on_force, log, happend, hforce]

/-- A log that refuses nothing takes every record. -/
theorem log_of_willing (h : ∀ n duty, j.verdicts n duty = none) (r : UpdateRecord) :
    (j.log r).1 = none := by
  have happend : j.verdict? .append = none := h _ _
  have hforce : (j.called.record (.update r)).verdict? .force = none := h _ _
  simp only [log, happend, hforce]

theorem logged_of_willing (h : ∀ n duty, j.verdicts n duty = none) (page : Page) :
    (j.logged page).1 = none := by
  rw [logged]
  split
  · exact log_of_willing h _
  · rfl

end Journal

end PagedHeap
