import PagedHeap.Proofs.Pool.Balance
import PagedHeap.Proofs.Pool.WriteBack

/-!
# Closing the books of a transaction

While a commit goes from page to page, the pages that are written already hold what the transaction
did, and the others do not yet; at the end its operations are committed.  An abort drops them with
the pages.  As long as the log and the devices work, a commit writes every page.
-/

namespace PagedHeap

namespace Pool

open Disk RowOp

variable {owns : PageId → TxnId → Prop} {t u : TxnId} {p p' : Pool} {id q : PageId} {page : Page}
  {b : Books} {ids : List PageId}

/-! ## Writing with working devices -/

/-- A cached page can be written back. -/
theorem writeBack_steady (hp : Coherent owns p) (hsteady : p.Steady)
    (hcached : p.cachedPage? id = some page) :
    ∃ p', (writeBack page).on p = (.ok (.ok ()), p') ∧ p'.Steady := by
  have hlog := Journal.logged_of_willing hsteady.logging page
  have hlogging : ∀ n duty, (p.journal.logged page).2.verdicts n duty = none := by
    rw [(Journal.grows_logged p.journal page).verdicts]
    exact hsteady.logging
  have hid : page.id = id := hp.framed.named hcached
  have hpresent := hp.present id page hcached
  obtain ⟨store, hs⟩ : ∃ store, p.disk.store? page.id.table = some store := by
    cases hs : p.disk.store? page.id.table with
    | some store => exact ⟨store, rfl⟩
    | none =>
      rw [pages, ← hid, hs] at hpresent
      exact absurd hpresent (Nat.not_lt_zero _)
  obtain ⟨hcatalog, hwritable⟩ := hsteady.writable _ store hs
  obtain ⟨store', hwrite, hkept⟩ := write_of_writable (hp.mounted _ store hs).1 hwritable
  have hlookup : p.disk.lookup page.id.table = .ok store := by
    rw [lookup, hcatalog, hs]
  have hdone := hsteady.put hs fun hnone => (congrArg Faults.unwritable hkept).trans hnone
  refine ⟨⟨p.buffer, p.disk.put page.id.table store',
    (p.journal.logged page).2.record (.written page.id page.image)⟩, ?_, hlogging, hdone.writable⟩
  rw [on_writeBack, hlog]
  simp only [hlookup, hwrite]

theorem settlePage_steady (hp : Coherent owns p) (hsteady : p.Steady) (t : TxnId) (id : PageId) :
    (settlePage t id).on p = (.ok (.ok ()), p) ∧ p.FreeOf t id ∨
    ∃ page p', p.cachedPage? id = some page ∧ page.dirtier = some t ∧
      (settlePage t id).on p = (.ok (.ok ()), p') ∧ Moves True owns t p [] p' ∧
      Replaced p p' id page page.rebase.markClean ∧ p'.Steady := by
  rcases settlePage_cases hp t id with
    hfree | ⟨page, result, p', hcached, hdirty, hon, hmoves, hresult⟩
  · exact Or.inl hfree
  · obtain ⟨f, hf, rfl⟩ := Buffer.cachedPage?_eq_some.mp hcached
    obtain ⟨p₁, hwrite, hsteady'⟩ := writeBack_steady hp hsteady hcached
    have hdone : (settlePage t id).on p =
        (.ok (.ok ()), p₁.setPage f (p.page f).rebase.markClean) := by
      have hdirty' : (p.page f).dirtier = some t := hdirty
      have hwrite' : (writeBack (p.page f)).on p = (.ok (.ok ()), p₁) := hwrite
      simp only [settlePage, Act.on_bind, Act.on_get, hf, hdirty', if_true, hwrite', Act.on_modify]
    obtain ⟨hok, rfl⟩ := Prod.mk.inj (hon.symm.trans hdone)
    obtain rfl := Except.ok.inj hok
    rcases hresult with ⟨-, hreplaced⟩ | ⟨⟨e, hfailed⟩, -⟩
    · exact Or.inr ⟨_, _, hcached, hdirty, hdone, hmoves, hreplaced, hsteady'.withBuffer _⟩
    · cases hfailed

/-! ## Committing page by page -/

/-- The books while a transaction commits: what it did is in the files of the pages that it has no
changes of any more, and is still to be written for the others. -/
structure Closing (b : Books) (t : TxnId) (p : Pool) : Prop where
  files_ahead : ∀ rid, ¬ p.FreeOf t rid.page →
    replayCell? rid b.committed none = some (p.disk.cell rid)
  files_behind : ∀ rid, p.FreeOf t rid.page →
    replayCell? rid (b.committed ++ b.running t) none = some (p.disk.cell rid)
  reflects : ∀ u, p.Reflects b u
  accounts : ∀ u, u ≠ t → p.Accounts b u

/-- Of a transaction that has no page dirty nothing is to be checked. -/
theorem Reflects.of_freeOf (hfree : ∀ id, p.FreeOf t id) : p.Reflects b t :=
  fun id page hcached hdirty => absurd hdirty (hfree id page hcached)

theorem Accounts.of_idle (hidle : b.running u = []) : p.Accounts b u := by
  intro op hop
  rw [hidle] at hop
  cases hop

theorem Balanced.closing (h : Balanced b p) (t : TxnId) : Closing b t p where
  files_ahead rid _ := h.files rid
  files_behind rid hfree := by
    rw [replayCell?_append, h.files rid, Option.bind_some]
    refine replayCell?_of_forall_ne fun op hop heq => ?_
    exact (h.accounts t).ne_of_freeOf hfree op hop (congrArg RecordId.page heq)
  reflects := h.reflects
  accounts u _ := h.accounts u

namespace Closing

/-- Writing one page takes what the transaction did to it into the file. -/
theorem replaced (h : Closing b t p) (hcached : p.cachedPage? id = some page)
    (hdirty : page.dirtier = some t) (himage : ∃ img, p.disk.image? id = some img) {new : Page}
    (hclean : new.dirtier = none) (hreplaced : Replaced p p' id page new) : Closing b t p' := by
  have hnotfree : ¬ p.FreeOf t id := fun hfree => hfree page hcached hdirty
  have hfree' : p'.FreeOf t id := hreplaced.freeOf hclean (Or.inl rfl)
  have hcached_ne : ∀ q, q ≠ id → p'.cachedPage? q = p.cachedPage? q := fun q hne =>
    (hreplaced.cache q).trans (if_neg hne)
  have himage_ne : ∀ q, q ≠ id → p'.disk.image? q = p.disk.image? q := fun q hne =>
    (hreplaced.disk.image? q).trans (if_neg hne)
  have hfree_ne : ∀ q, q ≠ id → (p'.FreeOf t q ↔ p.FreeOf t q) := fun q hne => by
    rw [FreeOf, hcached_ne q hne, FreeOf]
  have hcell_ne : ∀ rid : RecordId, rid.page ≠ id → p'.disk.cell rid = p.disk.cell rid :=
    fun rid hne => by rw [cell, himage_ne rid.page hne, cell]
  constructor
  case files_ahead =>
    intro rid hnot
    have hne : rid.page ≠ id := by
      rintro rfl
      exact hnot hfree'
    rw [hcell_ne rid hne]
    exact h.files_ahead rid fun hfree => hnot ((hfree_ne rid.page hne).mpr hfree)
  case files_behind =>
    intro rid hfree
    by_cases hq : rid.page = id
    · subst hq
      obtain ⟨img, himage⟩ := himage
      have himage' : p'.disk.image? rid.page = some page.image := by
        rw [hreplaced.disk.image?, if_pos rfl, himage]
        rfl
      rw [replayCell?_append, h.files_ahead rid hnotfree, Option.bind_some,
        cell_of_image? himage' rid.slot]
      exact h.reflects t rid.page page hcached hdirty rid.slot
    · rw [hcell_ne rid hq]
      exact h.files_behind rid ((hfree_ne rid.page hq).mp hfree)
  case reflects =>
    refine fun u => (h.reflects u).congr rfl fun q page' hcached' hu => ?_
    have hne : q ≠ id := by
      rintro rfl
      rw [hreplaced.cache, if_pos rfl] at hcached'
      rw [← Option.some.inj hcached', hclean] at hu
      cases hu
    exact ⟨(hcached_ne q hne).symm.trans hcached', himage_ne q hne⟩
  case accounts =>
    refine fun u hu => (h.accounts u hu).congr rfl fun q page' hcached' hdirty' => ?_
    have hne : q ≠ id := by
      rintro rfl
      rw [← Option.some.inj (hcached.symm.trans hcached'), hdirty] at hdirty'
      exact hu (Option.some.inj hdirty').symm
    exact (hcached_ne q hne).trans hcached'

theorem close (h : Closing b t p) (hfree : ∀ id, p.FreeOf t id) : Balanced (b.close t) p where
  files rid := h.files_behind rid (hfree rid.page)
  reflects u := by
    by_cases hu : u = t
    · subst hu
      exact .of_freeOf hfree
    · exact (h.reflects u).congr (if_neg hu) fun _ _ hcached _ => ⟨hcached, rfl⟩
  accounts u := by
    by_cases hu : u = t
    · exact .of_idle (if_pos hu)
    · exact (h.accounts u hu).congr (if_neg hu) fun _ _ hcached _ => hcached

end Closing

/-- A commit settles all pages, one after the other. -/
theorem settle_steady (ids : List PageId) (hp : Coherent owns p) (hsteady : p.Steady)
    (hroom : p.disk.Roomy) (hb : Closing b t p) :
    ∃ p', (settle t ids).on p = (.ok (.ok []), p') ∧ p'.Steady ∧ Closing b t p' := by
  induction ids generalizing p with
  | nil => exact ⟨p, rfl, hsteady, hb⟩
  | cons id rest ih =>
    simp only [settle, Act.on_bind, Act.on_attempt]
    rcases settlePage_steady hp hsteady t id with
      ⟨hon, -⟩ | ⟨page, p₁, hcached, hdirty, hon, hmoves, hreplaced, hsteady₁⟩
    · rw [hon]
      exact ih hp hsteady hroom hb
    · rw [hon]
      have himage : ∃ img, p.disk.image? id = some img :=
        (image?_or_full hp.mounted (hp.present id page hcached)).resolve_right
          (Nat.not_le.mpr (hroom id.table))
      have hroom₁ : p₁.disk.Roomy := fun table => hreplaced.disk.pages table ▸ hroom table
      exact ih (hmoves.coherent hp) hsteady₁ hroom₁
        (hb.replaced hcached hdirty himage rfl hreplaced)

/-! ## Aborting -/

theorem forget_same (p : Pool) (ids : List PageId) :
    (p.forget ids).disk = p.disk ∧ (p.forget ids).journal = p.journal := by
  induction ids generalizing p with
  | nil => exact ⟨rfl, rfl⟩
  | cons id rest ih => exact ih (p.discard id)

/-- Dropping pages that nobody else has changed drops what the transaction did. -/
theorem Balanced.forget (h : Balanced b p) (ids : List PageId)
    (hmine : ∀ id ∈ ids, ∀ page u, p.cachedPage? id = some page → page.dirtier = some u → u = t)
    (hfree : ∀ id, (p.forget ids).FreeOf t id) : Balanced (b.drop t) (p.forget ids) := by
  have hdisk := (forget_same p ids).1
  constructor
  case files =>
    intro rid
    rw [hdisk]
    exact h.files rid
  case reflects =>
    intro u
    by_cases hu : u = t
    · subst hu
      exact .of_freeOf hfree
    · refine (h.reflects u).congr (if_neg hu) fun q page hcached _ => ⟨?_, by rw [hdisk]⟩
      rw [cachedPage?_forget] at hcached
      split at hcached
      case isTrue => cases hcached
      case isFalse => exact hcached
  case accounts =>
    intro u
    by_cases hu : u = t
    · exact .of_idle (if_pos hu)
    · refine (h.accounts u).congr (if_neg hu) fun q page hcached hdirty => ?_
      have hq : q ∉ ids := fun hq => hu (hmine q hq page u hcached hdirty)
      rw [cachedPage?_forget, if_neg hq, hcached]

theorem Steady.forget (h : p.Steady) (ids : List PageId) : (p.forget ids).Steady := by
  obtain ⟨hdisk, hjournal⟩ := forget_same p ids
  exact ⟨by rw [hjournal]; exact h.logging, by rw [hdisk]; exact h.writable⟩

end Pool

end PagedHeap
