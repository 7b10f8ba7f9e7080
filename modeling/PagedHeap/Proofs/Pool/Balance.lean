import PagedHeap.Proofs.Pool.Tidy

/-!
# The books and the pool

The books hold the operations of every running transaction, and those of the transactions that have
committed, in the order of their commits.  They balance with a pool if the files hold what the
committed operations come to, and every page that a transaction has changed is cached, and is what
its operations make of the page in the file.
-/

namespace PagedHeap

structure Books where
  running : TxnId → List RowOp
  committed : List RowOp

namespace Books

def blank : Books := ⟨fun _ => [], []⟩

def enter (b : Books) (t : TxnId) (ops : List RowOp) : Books :=
  { b with running := fun u => if u = t then b.running t ++ ops else b.running u }

def drop (b : Books) (t : TxnId) : Books :=
  { b with running := fun u => if u = t then [] else b.running u }

def close (b : Books) (t : TxnId) : Books :=
  { b.drop t with committed := b.committed ++ b.running t }

variable {b : Books} {t u : TxnId}

theorem running_enter_self (b : Books) (t : TxnId) (ops : List RowOp) :
    (b.enter t ops).running t = b.running t ++ ops := if_pos rfl

theorem running_enter_ne (hne : u ≠ t) (ops : List RowOp) :
    (b.enter t ops).running u = b.running u := if_neg hne

@[simp] theorem enter_nil (b : Books) (t : TxnId) : b.enter t [] = b := by
  obtain ⟨running, committed⟩ := b
  simp only [enter, List.append_nil, Books.mk.injEq, and_true]
  funext u
  split
  case isTrue h => rw [h]
  case isFalse => rfl

theorem enter_enter (b : Books) (t : TxnId) (ops ops' : List RowOp) :
    (b.enter t ops).enter t ops' = b.enter t (ops ++ ops') := by
  simp only [enter, Books.mk.injEq, and_true]
  funext u
  split
  · simp
  · rfl

end Books

namespace Disk

/-- No file has used up the page numbers. -/
def Roomy (d : Disk) : Prop :=
  ∀ table, d.pages table < pageBound

/-- The row of a record in its file. -/
def cell (d : Disk) (rid : RecordId) : Option Row :=
  (d.image? rid.page).bind fun img => img.cell rid.slot

variable {d d' : Disk} {id : PageId} {img : Image}

theorem Roomy.of_le (h : d'.Roomy) (hle : ∀ table, d.pages table ≤ d'.pages table) : d.Roomy :=
  fun table => Nat.lt_of_le_of_lt (hle table) (h table)

theorem roomy_of_all (h : ∀ entry ∈ d.stores.entries,
    entry.2.volume.medium.length / pageSize < pageBound) : d.Roomy := by
  intro table
  rw [pages]
  split
  case h_1 s hs => exact h (table, s) (SortedMap.get?_eq_some.mp hs)
  case h_2 => decide

theorem cell_of_image? (h : d.image? id = some img) (slot : SlotId) :
    d.cell ⟨id, slot⟩ = img.cell slot := by
  rw [cell, h]
  rfl

end Disk

namespace Pool

open Disk RowOp

variable {owns : PageId → TxnId → Prop} {t u : TxnId} {p p' : Pool} {id q : PageId} {page : Page}
  {ops : List RowOp} {b b' : Books}

/-- The pages that a transaction has changed are what its operations make of their files. -/
def Reflects (p : Pool) (b : Books) (u : TxnId) : Prop :=
  ∀ id page, p.cachedPage? id = some page → page.dirtier = some u → ∀ slot,
    replayCell? ⟨id, slot⟩ (b.running u) (p.disk.cell ⟨id, slot⟩) = some (page.image.cell slot)

/-- All that a transaction has done is to be found in cached pages. -/
def Accounts (p : Pool) (b : Books) (u : TxnId) : Prop :=
  ∀ op ∈ b.running u, ∃ page, p.cachedPage? op.rid.page = some page ∧ page.dirtier = some u

structure Balanced (b : Books) (p : Pool) : Prop where
  files : ∀ rid, replayCell? rid b.committed none = some (p.disk.cell rid)
  reflects : ∀ u, p.Reflects b u
  accounts : ∀ u, p.Accounts b u

theorem Reflects.congr (h : p.Reflects b u) (hrunning : b'.running u = b.running u)
    (hsame : ∀ id page, p'.cachedPage? id = some page → page.dirtier = some u →
      p.cachedPage? id = some page ∧ p'.disk.image? id = p.disk.image? id) : p'.Reflects b' u := by
  intro id page hcached hdirty slot
  obtain ⟨hcached', himage⟩ := hsame id page hcached hdirty
  rw [hrunning, cell, himage]
  exact h id page hcached' hdirty slot

theorem Accounts.congr (h : p.Accounts b u) (hrunning : b'.running u = b.running u)
    (hsame : ∀ id page, p.cachedPage? id = some page → page.dirtier = some u →
      p'.cachedPage? id = some page) : p'.Accounts b' u := by
  intro op hop
  rw [hrunning] at hop
  obtain ⟨page, hcached, hdirty⟩ := h op hop
  exact ⟨page, hsame _ page hcached hdirty, hdirty⟩

/-- A transaction has done nothing to a page that it has not changed. -/
theorem Accounts.ne_of_freeOf (h : p.Accounts b u)
    (hfree : ∀ page, p.cachedPage? id = some page → page.dirtier ≠ some u) :
    ∀ op ∈ b.running u, op.rid.page ≠ id := by
  rintro op hop rfl
  obtain ⟨page, hcached, hdirty⟩ := h op hop
  exact hfree page hcached hdirty

/-- Moves that change no dirty page, and no page in a file but for blank ones behind. -/
theorem Balanced.congr (h : Balanced b p) (hcell : ∀ rid, p'.disk.cell rid = p.disk.cell rid)
    (hdirty : ∀ id page, page.dirtier ≠ none →
      (p'.cachedPage? id = some page ↔ p.cachedPage? id = some page)) : Balanced b p' where
  files rid := by
    rw [hcell]
    exact h.files rid
  reflects u id page hcached hu slot := by
    have hnone : page.dirtier ≠ none := by simp [hu]
    rw [hcell]
    exact h.reflects u id page ((hdirty id page hnone).mp hcached) hu slot
  accounts u := (h.accounts u).congr rfl fun id page hcached hu => by
    have hnone : page.dirtier ≠ none := by simp [hu]
    exact (hdirty id page hnone).mpr hcached

/-- No page is two transactions' own. -/
def Exclusive (owns : PageId → TxnId → Prop) : Prop :=
  ∀ id t u, owns id t → owns id u → u = t

namespace Balanced

theorem reflects_clean (h : Balanced b p) (hp : Coherent owns p) (hroom : p.disk.Roomy)
    (hcached : p.cachedPage? id = some page) (hclean : page.dirtier = none) (u : TxnId)
    (slot : SlotId) : replayCell? ⟨id, slot⟩ (b.running u) (p.disk.cell ⟨id, slot⟩) =
      some (page.image.cell slot) := by
  have hnone : ∀ op ∈ b.running u, op.rid.page ≠ id :=
    (h.accounts u).ne_of_freeOf fun page' hcached' hdirty => by
      rw [← Option.some.inj (hcached.symm.trans hcached'), hclean] at hdirty
      cases hdirty
  rw [replayCell?_of_forall_ne fun op hop heq => hnone op hop (congrArg RecordId.page heq)]
  rcases image?_or_full hp.mounted (hp.present id page hcached) with ⟨img, himage⟩ | hfull
  · rw [cell_of_image? himage, hp.faithful id page img hcached hclean himage]
  · exact absurd (hroom id.table) (Nat.not_lt.mpr hfull)

/-- A page that its owner is about to change is what the owner has made of it so far. -/
theorem reflects_own (h : Balanced b p) (hp : Coherent owns p) (hexcl : Exclusive owns)
    (hroom : p.disk.Roomy) (hcached : p.cachedPage? id = some page) (howns : owns id t)
    (slot : SlotId) : replayCell? ⟨id, slot⟩ (b.running t) (p.disk.cell ⟨id, slot⟩) =
      some (page.image.cell slot) := by
  cases hdirty : page.dirtier with
  | none => exact h.reflects_clean hp hroom hcached hdirty t slot
  | some u =>
    obtain rfl := hexcl id t u howns (hp.owned id page u hcached hdirty)
    exact h.reflects u id page hcached hdirty slot

theorem revise (h : Balanced b p) {old new : Page} (hcached : p.cachedPage? id = some old)
    (hold : ∀ u, old.dirtier = some u → u = t) (hnew : new.dirtier = some t)
    (hmine : ∀ slot, replayCell? ⟨id, slot⟩ (b.running t) (p.disk.cell ⟨id, slot⟩) =
      some (old.image.cell slot))
    (hops : ∀ op ∈ ops, op.rid.page = id)
    (hreplay : ∀ slot,
      replayCell? ⟨id, slot⟩ ops (old.image.cell slot) = some (new.image.cell slot))
    (hdisk : p'.disk = p.disk)
    (hcache : ∀ q, p'.cachedPage? q = if q = id then some new else p.cachedPage? q) :
    Balanced (b.enter t ops) p' where
  files rid := by
    rw [hdisk]
    exact h.files rid
  reflects u q page hcached' hdirty slot := by
    rw [hcache] at hcached'
    rw [hdisk]
    split at hcached'
    case isTrue heq =>
      subst heq
      obtain rfl := Option.some.inj hcached'
      obtain rfl := Option.some.inj (hnew.symm.trans hdirty)
      rw [Books.running_enter_self, replayCell?_append, hmine]
      exact hreplay slot
    case isFalse hne =>
      have hkept := h.reflects u q page hcached' hdirty slot
      by_cases hu : u = t
      · subst hu
        rw [Books.running_enter_self, replayCell?_append, hkept]
        refine replayCell?_of_forall_ne fun op hop heq => hne ?_
        rw [← hops op hop, heq]
      · rwa [Books.running_enter_ne hu]
  accounts u op hop := by
    -- What was cached and dirty still is, maybe changed again by the same transaction.
    have hkept : ∀ op ∈ b.running u, ∃ page, p'.cachedPage? op.rid.page = some page ∧
        page.dirtier = some u := by
      intro op hop
      obtain ⟨page, hcached', hdirty⟩ := h.accounts u op hop
      rw [hcache]
      by_cases hq : op.rid.page = id
      · rw [hq, hcached] at hcached'
        obtain rfl := Option.some.inj hcached'
        exact ⟨new, if_pos hq, hold u hdirty ▸ hnew⟩
      · exact ⟨page, (if_neg hq).trans hcached', hdirty⟩
    by_cases hu : u = t
    · subst hu
      rw [Books.running_enter_self] at hop
      rcases List.mem_append.mp hop with hop | hop
      · exact hkept op hop
      · exact ⟨new, (hcache _).trans (if_pos (hops op hop)), hnew⟩
    · rw [Books.running_enter_ne hu] at hop
      exact hkept op hop

end Balanced

theorem Change.balanced (h : Change False owns t p p' ops) (hp : Coherent owns p)
    (hexcl : Exclusive owns) (htidy : p.Tidy) (hroom : p'.disk.Roomy) (hb : Balanced b p) :
    Balanced (b.enter t ops) p' := by
  cases h with
  | shuffle hdisk hcache =>
    rw [Books.enter_nil]
    have hcell : ∀ rid, p'.disk.cell rid = p.disk.cell rid := fun rid => by
      rw [cell, hdisk.image? hp.mounted, cell]
    refine hb.congr hcell fun id page hdirty => ?_
    rcases hcache id with hsame | ⟨hrests, hnone | ⟨img, -, hnew⟩⟩
    · rw [hsame]
    · rw [hnone]
      exact ⟨fun h => (nomatch h), fun hcached => absurd (hrests page hcached) hdirty⟩
    · rw [hnew]
      refine ⟨fun hcached => ?_, fun hcached => absurd (hrests page hcached) hdirty⟩
      exact absurd (congrArg Page.dirtier (Option.some.inj hcached)).symm hdirty
  | grow id hdisk hcache =>
    rw [Books.enter_nil]
    refine hb.congr (fun rid => ?_) fun q page _ => by rw [hcache]
    rcases hdisk.image? rid.page with hsame | ⟨-, -, hnone, hblank⟩ | ⟨-, hfull⟩
    · rw [cell, hsame, cell]
    · rw [cell, hblank, cell, hnone]
      exact Image.cell_blank rid.slot
    · exact absurd (hroom rid.page.table) (Nat.not_lt.mpr hfull)
  | write _ _ hupkeep _ _ _ => exact hupkeep.elim
  | revise id old new ops hold hrevision hdisk hcache =>
    rw [hdisk] at hroom
    cases hrevision with
    | mark howns =>
      refine hb.revise hold (fun u hdirty => ?_) rfl
        (hb.reflects_own hp hexcl hroom hold howns) (by simp) (fun slot => ?_) hdisk hcache
      · exact hexcl id t u howns (hp.owned id old u hold hdirty)
      · rw [image_markDirty]
        rfl
    | perform op img hdirty hop hon =>
      have hnew : (old.withImage img).dirtier = some t := hdirty
      refine hb.revise hold (fun u hu => Option.some.inj (hu.symm.trans hdirty)) hnew
        (hb.reflects t id old hold hdirty) (fun op' hop' => ?_) (fun slot => ?_) hdisk hcache
      · rw [List.mem_singleton.mp hop', hop]
      · have hcells := ((htidy.cached id old hold).1.onImage? hon).2 slot
        rwa [hop] at hcells
    | clean _ hupkeep _ _ => exact hupkeep.elim

theorem Moves.steady (h : Moves False owns t p ops p') (hsteady : p.Steady) : p'.Steady := by
  induction h with
  | refl => exact hsteady
  | tail _ hmove ih => exact hmove.steady.resolve_left id ih

/-- Whatever a call does, the books balance with the pool if they take it down. -/
theorem Moves.balanced (h : Moves False owns t p ops p') (hp : Coherent owns p)
    (hexcl : Exclusive owns) (hroom : p'.disk.Roomy) (htidy : p.Tidy) (hb : Balanced b p) :
    Balanced (b.enter t ops) p' := by
  induction h with
  | refl => rwa [Books.enter_nil]
  | tail hmoves hmove ih =>
    have hroom₀ := hroom.of_le hmove.change.pages_le
    rw [← Books.enter_enter]
    exact hmove.change.balanced (hmoves.coherent hp) hexcl (hmoves.tidy hp htidy) hroom (ih hroom₀)

end Pool

end PagedHeap
