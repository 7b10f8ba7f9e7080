import PagedHeap.Pool.WriteBack
import PagedHeap.Proofs.Journal
import PagedHeap.Proofs.Pool.Acts

/-!
# Writing pages back

A page is clean only after it was written, and a page that could not be written is dropped only at
the end of the transaction that changed it.
-/

namespace PagedHeap.Pool

open Disk

variable {owns : PageId → TxnId → Prop} {t : TxnId} {p p' : Pool} {id q : PageId} {f : FrameId}
  {page : Page} {ops : List RowOp} {ids : List PageId}

theorem on_onJournal {α : Type} (act : Act Journal α) (p : Pool) :
    (onJournal act).on p = ((act.on p.journal).1, p.withJournal (act.on p.journal).2) := rfl

theorem on_writePage (page : Page) (p : Pool) :
    (writePage page).on p = match p.disk.lookup page.id.table with
      | .error e => (.ok (.error e), p)
      | .ok store => match store.write page with
        | .error e => (.ok (.error e), p)
        | .ok store => (.ok (.ok ()), p.withDisk (p.disk.put page.id.table store)) := by
  simp only [writePage, Act.on_bind, Act.on_get, Act.on_ofResult]
  cases p.disk.lookup page.id.table with
  | error e => rfl
  | ok store =>
    simp only
    cases store.write page with
    | error e => rfl
    | ok store' => rfl

/-- The part of the log in writing a page back. -/
def logPage (page : Page) : Act Pool Unit := do
  if let some txn := page.dirtier then
    onJournal (Journal.append txn page)
    onJournal Journal.force

/-- The log is called for a dirty page, and nothing but the journal changes. -/
theorem on_logPage (page : Page) (p : Pool) :
    (logPage page).on p = (.ok (match (p.journal.logged page).1 with
        | some e => .error e
        | none => .ok ()), p.withJournal (p.journal.logged page).2) := by
  cases hdirty : page.dirtier with
  | none =>
    simp only [logPage, Journal.logged, hdirty]
    rfl
  | some t =>
    simp only [logPage, Journal.logged, hdirty, Act.on_bind, on_onJournal, Journal.on_append,
      Journal.log]
    cases p.journal.verdict? .append with
    | some e => rfl
    | none =>
      simp only [withJournal, Journal.on_force]
      cases (p.journal.called.record (.update (Journal.recordOf t page))).verdict? .force with
      | some e => rfl
      | none => rfl

theorem writeBack_eq (page : Page) :
    writeBack page = logPage page >>= fun _ => writePage page >>= fun _ =>
      modify fun p => p.withJournal (p.journal.record (.written page.id page.image)) := by
  rw [writeBack, logPage]
  cases page.dirtier with
  | none => rfl
  | some txn =>
    simp only [bind_assoc]

theorem on_writeBack (page : Page) (p : Pool) :
    (writeBack page).on p = match (p.journal.logged page).1 with
      | some e => (.ok (.error e), p.withJournal (p.journal.logged page).2)
      | none => match p.disk.lookup page.id.table with
        | .error e => (.ok (.error e), p.withJournal (p.journal.logged page).2)
        | .ok store => match store.write page with
          | .error e => (.ok (.error e), p.withJournal (p.journal.logged page).2)
          | .ok store => (.ok (.ok ()), ⟨p.buffer, p.disk.put page.id.table store,
              (p.journal.logged page).2.record (.written page.id page.image)⟩) := by
  rw [writeBack_eq, Act.on_bind, on_logPage]
  cases (p.journal.logged page).1 with
  | some e => rfl
  | none =>
    have hdisk : (p.withJournal (p.journal.logged page).2).disk = p.disk := rfl
    simp only [Act.on_bind, on_writePage, hdisk]
    cases p.disk.lookup page.id.table with
    | error e => rfl
    | ok store =>
      simp only
      cases store.write page with
      | error e => rfl
      | ok store' => rfl

/-- Writing back changes nothing but the journal, unless the page was logged and then written. -/
theorem writeBack_any (page : Page) (p : Pool) :
    (∃ e journal, (writeBack page).on p = (.ok (.error e), p.withJournal journal) ∧
      p.journal.Grows journal) ∨
    ∃ store store', (p.journal.logged page).1 = none ∧
      p.disk.lookup page.id.table = .ok store ∧ store.write page = .ok store' ∧
      (writeBack page).on p = (.ok (.ok ()), ⟨p.buffer, p.disk.put page.id.table store',
        (p.journal.logged page).2.record (.written page.id page.image)⟩) := by
  have hgrows := Journal.grows_logged p.journal page
  rw [on_writeBack]
  cases (p.journal.logged page).1 with
  | some e => exact Or.inl ⟨e, _, rfl, hgrows⟩
  | none =>
    cases hlookup : p.disk.lookup page.id.table with
    | error e => exact Or.inl ⟨e, _, rfl, hgrows⟩
    | ok store =>
      cases hwrite : store.write page with
      | error e => exact Or.inl ⟨e, _, by simp only [hwrite], hgrows⟩
      | ok store' => exact Or.inr ⟨store, store', rfl, rfl, hwrite, by simp only [hwrite]⟩

/-- If the page could not be written, then nothing but the journal has changed. -/
theorem pool_of_failed {x : Checked (Except Error Unit)} {p₁ : Pool}
    (h : (writeBack page).on p = (x, p₁)) (hx : ∀ u, x ≠ .ok (.ok u)) :
    ∃ journal, p₁ = p.withJournal journal ∧ p.journal.Grows journal := by
  rcases writeBack_any page p with ⟨e, journal, hon, hgrows⟩ | ⟨store, store', -, -, -, hon⟩
  · rw [h] at hon
    exact ⟨journal, (Prod.mk.inj hon).2, hgrows⟩
  · rw [h] at hon
    exact absurd (Prod.mk.inj hon).1 (hx ())

theorem buffer_writeBack (page : Page) (p : Pool) : ((writeBack page).on p).2.buffer = p.buffer := by
  rcases writeBack_any page p with ⟨e, journal, hon, -⟩ | ⟨store, store', -, -, -, hon⟩
  · rw [hon]
    rfl
  · rw [hon]

/-- Writing back either writes the page to its file or leaves all files alone. -/
theorem writeBack_cases (hp : Coherent owns p) (hcached : p.cachedPage? id = some page) :
    ∃ result p', (writeBack page).on p = (.ok result, p') ∧ p'.buffer = p.buffer ∧
      (result = .ok () ∧ Rewritten p.disk p'.disk id page.image ∨
        (∃ e, result = .error e) ∧ p'.disk = p.disk) := by
  obtain rfl : page.id = id := hp.framed.named hcached
  rcases writeBack_any page p with ⟨e, journal, hon, -⟩ | ⟨store, store', -, hlookup, hwrite, hon⟩
  · exact ⟨.error e, _, hon, rfl, Or.inr ⟨⟨e, rfl⟩, rfl⟩⟩
  · exact ⟨.ok (), _, hon, rfl, Or.inl ⟨rfl,
      rewritten_put hp.mounted (store?_of_lookup hlookup).1 (hp.present _ page hcached) hwrite⟩⟩

theorem move_writeBack (hp : Coherent owns p) (t : TxnId) (hcached : p.cachedPage? id = some page)
    (hbuffer : p'.buffer = p.buffer)
    (hdisk : Rewritten p.disk p'.disk id page.image ∨ p'.disk = p.disk) :
    Move True owns t p p' [] := by
  rcases hdisk with hrewritten | hsame
  · exact ⟨hbuffer ▸ hp.framed, .write id page trivial hcached hrewritten fun q =>
      congrArg (fun b => b.cachedPage? q) hbuffer, Or.inl trivial⟩
  · exact move_of_same hp.framed (by rw [hbuffer]) (by rw [hbuffer]) (hsame ▸ SameFiles.refl _)
      (Or.inl trivial)

theorem cleaned_markClean (page : Page) : Cleaned page page.markClean :=
  ⟨rfl, rfl, rfl, Or.inl rfl⟩

theorem cleaned_rebase (page : Page) : Cleaned page page.rebase.markClean :=
  ⟨rfl, rfl, rfl, Or.inr rfl⟩

/-- A written page may be marked clean. -/
theorem move_clean (hp : p.buffer.Framed) (hf : p.buffer.cached? id = some f) {img : Image}
    {old : Disk} (hdisk : Rewritten old p.disk id img) (himage : (p.page f).image = img)
    {new : Page} (hnew : Cleaned (p.page f) new) : Move True owns t p (p.setPage f new) [] := by
  refine move_setPage hp hf (.clean new trivial (fun img' himage' => ?_) hnew)
    (hnew.id.trans (hp id f hf).2)
  rw [hdisk.image?, if_pos rfl] at himage'
  obtain ⟨_, -, rfl⟩ := Option.map_eq_some_iff.mp himage'
  exact himage

/-- A cached page was written to its file, and replaced by another one. -/
structure Replaced (p p' : Pool) (id : PageId) (old new : Page) : Prop where
  disk : Rewritten p.disk p'.disk id old.image
  cache : ∀ q, p'.cachedPage? q = if q = id then some new else p.cachedPage? q

/-- Writing a cached page back and marking it clean. -/
theorem settle_cases (hp : Coherent owns p) (t : TxnId) (hf : p.buffer.cached? id = some f)
    {new : Page} (hnew : Cleaned (p.page f) new) :
    ∃ result p', (writeBack (p.page f) >>= fun _ => modify fun p => p.setPage f new).on p =
        (.ok result, p') ∧ Moves True owns t p [] p' ∧
      (∀ q, p'.buffer.cached? q = p.buffer.cached? q) ∧
      (result = .ok () ∧ Replaced p p' id (p.page f) new ∨
        (∃ e, result = .error e) ∧ p'.buffer = p.buffer) := by
  have hcached : p.cachedPage? id = some (p.page f) := Buffer.cachedPage?_of_cached hf
  obtain ⟨result, p₁, hon, hbuffer, hdisk⟩ := writeBack_cases hp hcached
  have hmove : Move True owns t p p₁ [] :=
    move_writeBack hp t hcached hbuffer (hdisk.imp And.right And.right)
  rw [Act.on_bind, hon]
  rcases hdisk with ⟨rfl, hrewritten⟩ | ⟨⟨e, rfl⟩, -⟩
  · have hf' : p₁.buffer.cached? id = some f := by rw [hbuffer]; exact hf
    have hpage : p₁.page f = p.page f := by rw [page, page, hbuffer]
    have hmove' : Move True owns t p₁ (p₁.setPage f new) [] :=
      move_clean hmove.framed hf' hrewritten (by rw [hpage]) (by rwa [hpage])
    refine ⟨_, _, rfl, (Moves.single hmove).tail hmove', fun q => ?_,
      Or.inl ⟨rfl, ?_, fun q => ?_⟩⟩
    · exact congrArg (fun b => b.cached? q) hbuffer
    · exact hrewritten
    · have hold : p₁.cachedPage? q = p.cachedPage? q := congrArg (fun b => b.cachedPage? q) hbuffer
      rw [← hold]
      exact Buffer.cachedPage?_setPage hmove.framed hf' new q
  · exact ⟨_, p₁, rfl, Moves.single hmove, fun q => by rw [hbuffer], Or.inr ⟨⟨e, rfl⟩, hbuffer⟩⟩

/-! ## Flushing -/

theorem flush_cases (hp : Coherent owns p) (t : TxnId) (hf : p.buffer.cached? id = some f) :
    ∃ result p', (flush f).on p = (.ok result, p') ∧ Moves True owns t p [] p' ∧
      ∀ q, p'.buffer.cached? q = p.buffer.cached? q := by
  simp only [flush, Act.on_bind, Act.on_get]
  split
  case isFalse => exact ⟨_, p, rfl, .refl, fun _ => rfl⟩
  case isTrue =>
    obtain ⟨result, p', hon, hmoves, hsame, -⟩ :=
      settle_cases hp t hf (cleaned_markClean (p.page f))
    exact ⟨result, p', hon, hmoves, hsame⟩

/-- Steps that keep the cache as it is and are moves each. -/
theorem forM_cases {α : Type} {act : α → Act Pool Unit} (good : Pool → α → Prop)
    (hkeep : ∀ p p' a, (∀ q, p'.buffer.cached? q = p.buffer.cached? q) → good p a → good p' a)
    (hact : ∀ p, Coherent owns p → ∀ a, good p a → ∃ result p', (act a).on p = (.ok result, p') ∧
      Moves True owns t p [] p' ∧ ∀ q, p'.buffer.cached? q = p.buffer.cached? q)
    (l : List α) (hp : Coherent owns p) (hgood : ∀ a ∈ l, good p a) :
    ∃ result p', (l.forM act).on p = (.ok result, p') ∧ Moves True owns t p [] p' := by
  induction l generalizing p with
  | nil => exact ⟨_, p, rfl, .refl⟩
  | cons a rest ih =>
    obtain ⟨result, p₁, hon, hmoves, hsame⟩ := hact p hp a (hgood a List.mem_cons_self)
    have hcons : (a :: rest).forM act = act a >>= fun _ => rest.forM act := rfl
    rw [hcons, Act.on_bind, hon]
    rcases result with e | u
    · exact ⟨_, p₁, rfl, hmoves⟩
    · obtain ⟨result', p₂, hon', hmoves'⟩ := ih (hmoves.coherent hp) fun b hb =>
        hkeep p p₁ b hsame (hgood b (List.mem_cons_of_mem _ hb))
      exact ⟨result', p₂, hon', hmoves.trans hmoves'⟩

theorem flushAll_cases (hp : Coherent owns p) (t : TxnId) :
    ∃ result p', flushAll.on p = (.ok result, p') ∧ Moves True owns t p [] p' := by
  simp only [flushAll, Act.on_bind, Act.on_get]
  refine forM_cases (fun p f => ∃ id, p.buffer.cached? id = some f)
    (fun p p' f hsame ⟨id, hf⟩ => ⟨id, (hsame id).trans hf⟩)
    (fun p hp f ⟨id, hf⟩ => flush_cases hp t hf) p.buffer.cache.values hp fun f hf => ?_
  obtain ⟨⟨id, f'⟩, hentry, rfl⟩ := List.mem_map.mp hf
  exact ⟨id, SortedMap.get?_eq_some.mpr hentry⟩

theorem flushPage_cases (hp : Coherent owns p) (t : TxnId) (id : PageId) :
    ∃ result p', (flushPage id).on p = (.ok result, p') ∧ Moves True owns t p [] p' := by
  simp only [flushPage, Act.on_bind, Act.on_get]
  cases hf : p.buffer.cached? id with
  | none => exact ⟨_, p, rfl, .refl⟩
  | some f =>
    obtain ⟨result, p', hon, hmoves, -⟩ := flush_cases hp t hf
    exact ⟨result, p', hon, hmoves⟩

theorem flushOwned_cases (hp : Coherent owns p) (t u : TxnId) (ids : List PageId) :
    ∃ result p', (flushOwned u ids).on p = (.ok result, p') ∧ Moves True owns t p [] p' := by
  refine forM_cases (fun _ _ => True) (fun _ _ _ _ h => h) (fun p hp id _ => ?_) ids hp
    fun _ _ => trivial
  simp only [Act.on_bind, Act.on_get]
  cases hf : p.buffer.cached? id with
  | none => exact ⟨_, p, rfl, .refl, fun _ => rfl⟩
  | some f =>
    simp only
    split
    case isTrue => exact flush_cases hp t hf
    case isFalse => exact ⟨_, p, rfl, .refl, fun _ => rfl⟩

/-! ## Ending a transaction -/

theorem Ending.moves (h : Ending owns t p p') {p'' : Pool} (hmoves : Moves True owns t p' [] p'') :
    Ending owns t p p'' := by
  have go : ∀ ops p'', Moves True owns t p' ops p'' → ops = [] → Ending owns t p p'' := by
    intro ops p'' hmoves
    induction hmoves with
    | refl => exact fun _ => h
    | tail _ hmove ih =>
      intro hnil
      obtain ⟨hfirst, hlast⟩ := List.append_eq_nil_iff.mp hnil
      exact (ih hfirst).move (hlast ▸ hmove)
  exact go [] p'' hmoves rfl

theorem Ending.trans (h : Ending owns t p p') {p'' : Pool} (h' : Ending owns t p' p'') :
    Ending owns t p p'' := by
  induction h' with
  | refl => exact h
  | move _ hmove ih => exact ih.move hmove
  | drop id _ hmine ih => exact ih.drop id hmine

/-- The cached page, if any, holds no changes of the transaction. -/
def FreeOf (p : Pool) (t : TxnId) (id : PageId) : Prop :=
  ∀ page, p.cachedPage? id = some page → page.dirtier ≠ some t

theorem FreeOf.discard (h : p.FreeOf t q) (id : PageId) : (p.discard id).FreeOf t q :=
  fun page hcached => h page (cachedPage?_of_discard hcached)

theorem freeOf_discard (p : Pool) (t : TxnId) (id : PageId) : (p.discard id).FreeOf t id := by
  intro page hcached
  rw [cachedPage?_discard, if_pos rfl] at hcached
  cases hcached

theorem Replaced.freeOf {old new : Page} (h : Replaced p p' id old new)
    (hclean : new.dirtier = none) (hfree : q = id ∨ p.FreeOf t q) : p'.FreeOf t q := by
  intro page hcached
  rw [h.cache] at hcached
  split at hcached
  case isTrue =>
    rw [← Option.some.inj hcached, hclean]
    exact nofun
  case isFalse hne => exact hfree.resolve_left hne page hcached

/-- Settling a page that the transaction has changed writes it back; other pages are left alone. -/
theorem settlePage_cases (hp : Coherent owns p) (t : TxnId) (id : PageId) :
    (settlePage t id).on p = (.ok (.ok ()), p) ∧ p.FreeOf t id ∨
    ∃ page result p', p.cachedPage? id = some page ∧ page.dirtier = some t ∧
      (settlePage t id).on p = (.ok result, p') ∧ Moves True owns t p [] p' ∧
      (result = .ok () ∧ Replaced p p' id page page.rebase.markClean ∨
        (∃ e, result = .error e) ∧ p'.buffer = p.buffer) := by
  simp only [settlePage, Act.on_bind, Act.on_get]
  cases hf : p.buffer.cached? id with
  | none =>
    refine Or.inl ⟨rfl, fun page hcached => ?_⟩
    have hnone : p.cachedPage? id = none := Buffer.cachedPage?_eq_none.mpr hf
    rw [hnone] at hcached
    cases hcached
  | some f =>
    have hcached : p.cachedPage? id = some (p.page f) := Buffer.cachedPage?_of_cached hf
    simp only
    split
    case isFalse hdirty =>
      refine Or.inl ⟨rfl, fun page hcached' => ?_⟩
      rw [← Option.some.inj (hcached.symm.trans hcached')]
      exact hdirty
    case isTrue hdirty =>
      obtain ⟨result, p', hon, hmoves, -, hresult⟩ :=
        settle_cases hp t hf (cleaned_rebase (p.page f))
      exact Or.inr ⟨_, result, p', hcached, hdirty, hon, hmoves, hresult⟩

/-- A settled page is free of the transaction's changes, and no other page gets any. -/
theorem settlePage_freeOf (hp : Coherent owns p) (t : TxnId) (id : PageId) :
    ∃ result p', (settlePage t id).on p = (.ok result, p') ∧ Moves True owns t p [] p' ∧
      (∀ q, p.FreeOf t q → p'.FreeOf t q) ∧ (result = .ok () → p'.FreeOf t id) := by
  rcases settlePage_cases hp t id with ⟨hon, hfree⟩ | ⟨page, result, p', hcached, -, hon, hmoves,
    ⟨rfl, hreplaced⟩ | ⟨⟨e, rfl⟩, hbuffer⟩⟩
  · exact ⟨_, p, hon, .refl, fun _ h => h, fun _ => hfree⟩
  · exact ⟨_, p', hon, hmoves, fun q hfree => hreplaced.freeOf rfl (Or.inr hfree),
      fun _ => hreplaced.freeOf rfl (Or.inl rfl)⟩
  · refine ⟨_, p', hon, hmoves, fun q hfree page hcached => hfree page ?_, nofun⟩
    rwa [cachedPage?, hbuffer] at hcached

theorem settlePage_ok (t : TxnId) (id : PageId) (p : Pool) :
    ∃ result p', (settlePage t id).on p = (.ok result, p') := by
  simp only [settlePage, Act.on_bind, Act.on_get]
  cases p.buffer.cached? id with
  | none => exact ⟨_, p, rfl⟩
  | some f =>
    simp only
    split
    case isFalse => exact ⟨_, p, rfl⟩
    case isTrue =>
      rw [Act.on_bind]
      rcases writeBack_any (p.page f) p with ⟨e, journal, hon, -⟩ | ⟨store, store', -, -, -, hon⟩
      · rw [hon]
        exact ⟨_, _, rfl⟩
      · rw [hon]
        exact ⟨_, _, rfl⟩

/-- A commit goes through all its pages, whatever fails on the way. -/
theorem settle_ok (t : TxnId) (ids : List PageId) (p : Pool) :
    ∃ failures p', (settle t ids).on p = (.ok (.ok failures), p') := by
  induction ids generalizing p with
  | nil => exact ⟨_, p, rfl⟩
  | cons id rest ih =>
    obtain ⟨result, p₁, hon⟩ := settlePage_ok t id p
    simp only [settle, Act.on_bind, Act.on_attempt, hon]
    rcases result with e | u
    · obtain ⟨failures, p₂, hon'⟩ := ih (p₁.discard id)
      simp only [Except.map, Act.on_modify, Act.on_bind, hon']
      exact ⟨_, p₂, rfl⟩
    · exact ih p₁

theorem settle_ne_fault (t : TxnId) (ids : List PageId) (p : Pool) (fault : Fault) :
    ((settle t ids).on p).1 ≠ .error fault := by
  obtain ⟨failures, p', hon⟩ := settle_ok t ids p
  rw [hon]
  exact nofun

/-- No transaction but this one has any of the pages for itself. -/
theorem ending_settle (ids : List PageId) (hp : Coherent owns p)
    (hmine : ∀ id ∈ ids, ∀ s, owns id s → s = t) :
    ∃ failures p', (settle t ids).on p = (.ok (.ok failures), p') ∧ Ending owns t p p' ∧
      (∀ q, p.FreeOf t q → p'.FreeOf t q) ∧ ∀ id ∈ ids, p'.FreeOf t id := by
  induction ids generalizing p with
  | nil => exact ⟨_, p, rfl, .refl, fun _ h => h, fun _ h => absurd h List.not_mem_nil⟩
  | cons id rest ih =>
    have hrest : ∀ id ∈ rest, ∀ s, owns id s → s = t := fun id hid =>
      hmine id (List.mem_cons_of_mem _ hid)
    obtain ⟨result, p₁, hon, hmoves, hkept, hsettled⟩ := settlePage_freeOf hp t id
    have hp₁ := hmoves.coherent hp
    have hending : Ending owns t p p₁ := Ending.refl.moves hmoves
    simp only [settle, Act.on_bind, Act.on_attempt, hon]
    -- What follows is the rest of the pages, from a pool where this one is dealt with.
    have hgo : ∀ p₂, Ending owns t p p₂ → Coherent owns p₂ →
        (∀ q, p.FreeOf t q → p₂.FreeOf t q) → p₂.FreeOf t id →
        ∃ failures p', (settle t rest).on p₂ = (.ok (.ok failures), p') ∧ Ending owns t p p' ∧
          (∀ q, p.FreeOf t q → p'.FreeOf t q) ∧ ∀ q ∈ id :: rest, p'.FreeOf t q := by
      intro p₂ hending₂ hp₂ hkept₂ hid
      obtain ⟨failures, p₃, hon', hending₃, hkept₃, hsettled₃⟩ := ih hp₂ hrest
      refine ⟨failures, p₃, hon', hending₂.trans hending₃, fun q hq => hkept₃ q (hkept₂ q hq), ?_⟩
      intro q hq
      rcases List.mem_cons.mp hq with rfl | hq
      · exact hkept₃ q hid
      · exact hsettled₃ q hq
    rcases result with e | u
    · have hdropped : Ending owns t p (p₁.discard id) :=
        hending.drop id fun page s hcached hdirty =>
          hmine id List.mem_cons_self s (hp₁.owned id page s hcached hdirty)
      obtain ⟨failures, p₂, hon', hending₂, hkept₂, hsettled₂⟩ := hgo (p₁.discard id) hdropped
        (hp₁.discard id) (fun q hq => (hkept q hq).discard id) (freeOf_discard p₁ t id)
      simp only [Except.map, Act.on_modify, Act.on_bind, hon']
      exact ⟨_, p₂, rfl, hending₂, hkept₂, hsettled₂⟩
    · exact hgo p₁ hending hp₁ hkept (hsettled rfl)

theorem cachedPage?_forget (p : Pool) (ids : List PageId) (q : PageId) :
    (p.forget ids).cachedPage? q = if q ∈ ids then none else p.cachedPage? q := by
  induction ids generalizing p with
  | nil => rfl
  | cons id rest ih =>
    have hcons : p.forget (id :: rest) = (p.discard id).forget rest := rfl
    rw [hcons, ih, cachedPage?_discard]
    by_cases hq : q = id
    · simp [hq]
    · simp [hq]

theorem freeOf_forget (ids : List PageId) (t : TxnId) (p : Pool) :
    (∀ q, p.FreeOf t q → (p.forget ids).FreeOf t q) ∧ ∀ id ∈ ids, (p.forget ids).FreeOf t id := by
  refine ⟨fun q hfree page hcached => ?_, fun id hid page hcached => ?_⟩
  · rw [cachedPage?_forget] at hcached
    split at hcached
    · cases hcached
    · exact hfree page hcached
  · rw [cachedPage?_forget, if_pos hid] at hcached
    cases hcached

theorem ending_forget (ids : List PageId) (hp : Coherent owns p)
    (hmine : ∀ id ∈ ids, ∀ s, owns id s → s = t) : Ending owns t p (p.forget ids) := by
  induction ids generalizing p with
  | nil => exact .refl
  | cons id rest ih =>
    have hdropped : Ending owns t p (p.discard id) :=
      Ending.refl.drop id fun page s hcached hdirty =>
        hmine id List.mem_cons_self s (hp.owned id page s hcached hdirty)
    exact hdropped.trans (ih (hp.discard id) fun id' hid =>
      hmine id' (List.mem_cons_of_mem _ hid))

end PagedHeap.Pool
