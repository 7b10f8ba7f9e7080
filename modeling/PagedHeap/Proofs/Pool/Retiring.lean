import PagedHeap.Proofs.Pool.Twins
import PagedHeap.Proofs.Pool.WriteBack

/-!
# Writing back, in two pools

Only dirty pages are written, and two pools that differ in caching have the same dirty pages; so
they write the same pages in the same order, log the same records, and are left with the same files.
-/

namespace PagedHeap.Pool

open Disk

variable {p p' q q' : Pool} {id : PageId} {f g : FrameId} {t : TxnId} {page new : Page}
  {chosen : Page → Bool} {clean : Page → Page}

/-! ## Below the buffers -/

/-- What lies below the buffers is the same, and works. -/
structure Level (p q : Pool) : Prop where
  files : SameFiles p.disk q.disk
  journal : q.journal = p.journal
  first : p.disk.Working
  second : q.disk.Working

theorem Twins.level (h : p.Twins q) : p.Level q :=
  ⟨h.agreeing.files, h.agreeing.journal, h.first.working, h.second.working⟩

theorem agree_onJournal {α : Type} (h : p.Level q) (act : Act Journal α) :
    Act.Agree Level ((onJournal act).on p) ((onJournal act).on q) := by
  rw [on_onJournal, on_onJournal, h.journal]
  exact ⟨rfl, h.files, rfl, h.first, h.second⟩

theorem agree_logPage (h : p.Level q) (page : Page) :
    Act.Agree Level ((logPage page).on p) ((logPage page).on q) := by
  rw [logPage]
  cases page.dirtier with
  | none => exact ⟨rfl, h⟩
  | some t =>
    exact (agree_onJournal h _).bind (fun _ _ h => h) fun _ _ _ h => agree_onJournal h _

theorem write_of_working {s : Store} (hs : s.faults = {}) (page : Page) :
    s.write page = (s.volume.write page).map fun volume => { s with volume } := by
  rw [Store.write, hs]
  cases s.volume.write page <;> rfl

theorem agree_writePage (h : p.Level q) (page : Page) :
    Act.Agree Level ((writePage page).on p) ((writePage page).on q) := by
  rw [on_writePage, on_writePage]
  rcases h.files.lookup_cases page.id.table with ⟨s, s', hs, hs', hfile⟩ | ⟨e, he, he'⟩
  case inr =>
    rw [he, he']
    exact ⟨rfl, h⟩
  have hworks := h.first _ s (store?_of_lookup hs).1
  have hworks' := h.second _ s' (store?_of_lookup hs').1
  rw [hs, hs']
  simp only
  rw [write_of_working hworks, write_of_working hworks', Volume.write, Volume.write]
  have htable : s'.volume.table = s.volume.table := congrArg Prod.fst hfile
  have hmedium : s'.volume.medium = s.volume.medium := congrArg (fun f => f.2.1) hfile
  have hdetours : s'.detours = s.detours := congrArg (fun f => f.2.2) hfile
  have howns : s'.volume.owns page.id = s.volume.owns page.id := by
    rw [Volume.owns, Volume.owns, htable]
  rw [howns, htable]
  cases s.volume.owns page.id with
  | false => exact ⟨rfl, h⟩
  | true =>
    refine ⟨rfl, h.files.put_put ?_, h.journal, h.first.put hworks, h.second.put hworks'⟩
    rw [Store.file, Store.file]
    refine Prod.ext rfl (Prod.ext ?_ hdetours)
    rw [hmedium]

theorem agree_writeBack (h : p.Level q) (page : Page) :
    Act.Agree Level ((writeBack page).on p) ((writeBack page).on q) := by
  rw [writeBack_eq]
  refine (agree_logPage h page).bind (fun _ _ h => h) fun _ p q h => ?_
  refine (agree_writePage h page).bind (fun _ _ h => h) fun _ p q h => ?_
  rw [Act.on_modify, Act.on_modify]
  refine ⟨rfl, h.files, ?_, h.first, h.second⟩
  exact congrArg (fun j => j.record (.written page.id page.image)) h.journal

/-! ## One page -/

/-- Writes the page that is cached under an identifier back if it is chosen, and cleans it. -/
def retire (chosen : Page → Bool) (clean : Page → Page) (id : PageId) : Act Pool Unit := do
  let p ← get
  match p.buffer.cached? id with
  | none => return
  | some f =>
    if chosen (p.page f) then
      writeBack (p.page f)
      modify fun p' => p'.setPage f (clean (p.page f))

/-- A page that is not chosen is left alone. -/
theorem on_retire_idle (h : ∀ page, p.cachedPage? id = some page → chosen page = false) :
    (retire chosen clean id).on p = (.ok (.ok ()), p) := by
  simp only [retire, Act.on_bind, Act.on_get]
  cases hf : p.buffer.cached? id with
  | none => rfl
  | some f =>
    have hnot : chosen (p.page f) = false := h _ (Buffer.cachedPage?_of_cached hf)
    simp only [hnot, Bool.false_eq_true, if_false]
    rfl

theorem on_retire (hf : p.buffer.cached? id = some f) (h : chosen (p.page f) = true) :
    (retire chosen clean id).on p =
      (writeBack (p.page f) >>= fun _ => modify fun p' => p'.setPage f (clean (p.page f))).on
        p := by
  simp only [retire, Act.on_bind, Act.on_get, hf, h, if_true]

/-- How retiring a chosen page leaves its pool. -/
theorem Reliable.retired (hp : p.Reliable) (hf : p.buffer.cached? id = some f)
    (hclean : Cleaned (p.page f) new) {x : Checked (Except Error Unit)}
    (hon : (writeBack (p.page f) >>= fun _ => modify fun p' => p'.setPage f new).on p = (x, p'))
    (hworking : p'.disk.Working) :
    ∃ result, x = .ok result ∧ p'.Reliable ∧ (result = .ok () ∧ Replaced p p' id (p.page f) new ∨
      (∃ e, result = .error e) ∧ p'.buffer = p.buffer) := by
  obtain ⟨x', p'', hon', hmoves, hsame, hcases⟩ := settle_cases hp.coherent ⟨0⟩ hf hclean
  obtain ⟨rfl, rfl⟩ := Prod.mk.inj (hon.symm.trans hon')
  refine ⟨x', rfl, ⟨hmoves.coherent hp.coherent, fun r page hcached => ?_, hworking⟩, hcases⟩
  rw [hmoves.catalog]
  obtain ⟨g, hg, -⟩ := Buffer.cachedPage?_eq_some.mp hcached
  exact hp.listed r _ (Buffer.cachedPage?_of_cached ((hsame r).symm.trans hg))

theorem agree_retire (h : p.Twins q) (hchosen : ∀ page, chosen page = true → page.dirtier ≠ none)
    (hclean : ∀ page, Cleaned page (clean page)) (id : PageId) :
    Act.Agree Twins ((retire chosen clean id).on p) ((retire chosen clean id).on q) := by
  have hsame : ∀ page, chosen page = true →
      (q.cachedPage? id = some page ↔ p.cachedPage? id = some page) :=
    fun page hpage => h.agreeing.dirty id page (hchosen page hpage)
  -- A chosen page is dirty, so both pools have it or neither.
  by_cases hdue : ∃ page, p.cachedPage? id = some page ∧ chosen page = true
  case neg =>
    have hidle : ∀ page, p.cachedPage? id = some page → chosen page = false :=
      fun page hcached => Bool.not_eq_true _ ▸ fun hpage => hdue ⟨page, hcached, hpage⟩
    have hidle' : ∀ page, q.cachedPage? id = some page → chosen page = false :=
      fun page hcached => Bool.not_eq_true _ ▸ fun hpage =>
        hdue ⟨page, (hsame page hpage).mp hcached, hpage⟩
    rw [on_retire_idle hidle, on_retire_idle hidle']
    exact ⟨rfl, h⟩
  obtain ⟨page, hcached, hpage⟩ := hdue
  obtain ⟨f, hf, rfl⟩ := Buffer.cachedPage?_eq_some.mp hcached
  obtain ⟨g, hg, hgf⟩ := Buffer.cachedPage?_eq_some.mp ((hsame _ hpage).mpr hcached)
  have heq : q.page g = p.page f := hgf
  rw [on_retire hf hpage, on_retire hg (heq ▸ hpage)]
  have hlevel : Act.Agree Level
      ((writeBack (p.page f) >>= fun _ => modify fun p' => p'.setPage f (clean (p.page f))).on p)
      ((writeBack (q.page g) >>= fun _ => modify fun p' => p'.setPage g (clean (q.page g))).on
        q) := by
    rw [heq]
    refine (agree_writeBack h.level _).bind (fun _ _ h => h) fun _ p₁ q₁ h => ?_
    exact ⟨rfl, h.files, h.journal, h.first, h.second⟩
  rcases hp : (writeBack (p.page f) >>= fun _ =>
    modify fun p' => p'.setPage f (clean (p.page f))).on p with ⟨x, p'⟩
  rcases hq : (writeBack (q.page g) >>= fun _ =>
    modify fun p' => p'.setPage g (clean (q.page g))).on q with ⟨y, q'⟩
  rw [hp, hq] at hlevel ⊢
  obtain ⟨hresult, hlevel⟩ := hlevel
  obtain rfl : y = x := hresult
  obtain ⟨result, rfl, hp', hcases⟩ := h.first.retired hf (hclean _) hp hlevel.first
  obtain ⟨result', hsame', hq', hcases'⟩ := h.second.retired hg (hclean _) hq hlevel.second
  obtain rfl := Except.ok.inj hsame'
  refine ⟨rfl, ⟨hlevel.files, hlevel.journal, fun r page hdirty => ?_⟩, hp', hq'⟩
  rcases hcases with ⟨rfl, hreplaced⟩ | ⟨⟨e, rfl⟩, hbuffer⟩
  · have hreplaced' := (hcases'.resolve_right fun hfailed => nomatch hfailed.1).2
    rw [hreplaced.cache, hreplaced'.cache, heq]
    split
    · exact Iff.rfl
    · exact h.agreeing.dirty r page hdirty
  · have hbuffer' := (hcases'.resolve_left fun hdone => nomatch hdone.1).2
    rw [cachedPage?, cachedPage?, hbuffer, hbuffer']
    exact h.agreeing.dirty r page hdirty

/-! ## Many pages -/

theorem agree_forM {α : Type} {act : α → Act Pool Unit}
    (hact : ∀ a p q, Twins p q → Act.Agree Twins ((act a).on p) ((act a).on q)) (l : List α)
    (h : p.Twins q) : Act.Agree Twins ((l.forM act).on p) ((l.forM act).on q) := by
  induction l generalizing p q with
  | nil => exact ⟨rfl, h⟩
  | cons a rest ih =>
    have hcons : (a :: rest).forM act = act a >>= fun _ => rest.forM act := rfl
    rw [hcons]
    exact (hact a p q h).bind (fun _ _ h => h) fun _ _ _ h => ih h

theorem flushPage_eq (id : PageId) : flushPage id = retire Page.isDirty Page.markClean id := by
  refine Act.ext fun p => ?_
  simp only [flushPage, retire, Act.on_bind, Act.on_get]
  cases p.buffer.cached? id with
  | none => rfl
  | some f => simp only [flush, Act.on_bind, Act.on_get]

theorem agree_flushPage (h : p.Twins q) (id : PageId) :
    Act.Agree Twins ((flushPage id).on p) ((flushPage id).on q) := by
  rw [flushPage_eq]
  refine agree_retire h (fun page hdirty hnone => ?_) cleaned_markClean id
  rw [Page.isDirty, hnone] at hdirty
  cases hdirty

/-- The page is one that a transaction has changed. -/
def isDue (t : TxnId) (page : Page) : Bool :=
  decide (page.dirtier = some t)

theorem isDue_dirty (t : TxnId) (page : Page) (h : isDue t page = true) :
    page.dirtier ≠ none := by
  rw [of_decide_eq_true h]
  exact nofun

theorem flushOwned_eq (t : TxnId) (ids : List PageId) :
    flushOwned t ids = ids.forM (retire (isDue t) Page.markClean) := by
  refine congrArg (List.forM ids) (funext fun id => Act.ext fun p => ?_)
  simp only [retire, Act.on_bind, Act.on_get]
  cases p.buffer.cached? id with
  | none => rfl
  | some f =>
    by_cases hdirty : (p.page f).dirtier = some t
    · simp [isDue, hdirty, flush, Act.on_bind, Page.isDirty]
    · simp [isDue, hdirty]

theorem agree_flushOwned (h : p.Twins q) (t : TxnId) (ids : List PageId) :
    Act.Agree Twins ((flushOwned t ids).on p) ((flushOwned t ids).on q) := by
  rw [flushOwned_eq]
  exact agree_forM (fun id p q h => agree_retire h (isDue_dirty t) cleaned_markClean id)
    ids h

theorem settlePage_eq (t : TxnId) (id : PageId) :
    settlePage t id = retire (isDue t) (fun page => page.rebase.markClean) id := by
  refine Act.ext fun p => ?_
  simp only [settlePage, retire, Act.on_bind, Act.on_get]
  cases p.buffer.cached? id with
  | none => rfl
  | some f => by_cases hdirty : (p.page f).dirtier = some t <;> simp [isDue, hdirty]

/-- Settling pages fails at the same pages, and for the same reasons. -/
theorem agree_settle (h : p.Twins q) (t : TxnId) (ids : List PageId) :
    Act.Agree Twins ((settle t ids).on p) ((settle t ids).on q) := by
  induction ids generalizing p q with
  | nil => exact ⟨rfl, h⟩
  | cons id rest ih =>
    have hpage : Act.Agree Twins ((settlePage t id).attempt.on p)
        ((settlePage t id).attempt.on q) := by
      rw [settlePage_eq, Act.on_attempt, Act.on_attempt]
      have hretire := agree_retire h (isDue_dirty t) cleaned_rebase id
      refine ⟨?_, hretire.states⟩
      simp only [hretire.result]
    rw [settle]
    refine hpage.bind (fun _ _ h => h) fun result p q h => ?_
    cases result with
    | ok u => exact ih h
    | error e =>
      simp only [Act.on_modify_bind]
      exact (ih (h.discard id)).bind (fun _ _ h => h) fun _ _ _ h => ⟨rfl, h⟩

theorem Twins.forget (h : p.Twins q) (ids : List PageId) : (p.forget ids).Twins (q.forget ids) := by
  induction ids generalizing p q with
  | nil => exact h
  | cons id rest ih => exact ih (h.discard id)

/-! ## The whole cache -/

/-- Flushing a frame is flushing the page that is cached in it. -/
theorem on_flush (hf : p.buffer.cached? id = some f) : (flush f).on p = (flushPage id).on p := by
  simp only [flushPage, Act.on_bind, Act.on_get, hf]

theorem on_flushPage_none (hnone : p.buffer.cached? id = none) :
    (flushPage id).on p = (.ok (.ok ()), p) := by
  simp only [flushPage, Act.on_bind, Act.on_get, hnone, Act.on_pure]

/-- The frames of the cache are flushed in the order of their pages, and it does no harm to ask for
pages that are not cached. -/
theorem forM_flush (hp : Coherent anyone p) (ids : List PageId)
    (entries : List (PageId × FrameId)) (hids : ids.Pairwise fun a b => rank a < rank b)
    (hentries : Entries.Ascending entries)
    (hcached : ∀ e ∈ entries, p.buffer.cached? e.1 = some e.2)
    (hall : ∀ id ∈ ids, ∀ f, p.buffer.cached? id = some f → (id, f) ∈ entries)
    (hlisted : ∀ e ∈ entries, e.1 ∈ ids) :
    ((entries.map Prod.snd).forM flush).on p = (ids.forM flushPage).on p := by
  induction ids generalizing entries p with
  | nil =>
    cases entries with
    | nil => rfl
    | cons e _ => exact absurd (hlisted e List.mem_cons_self) List.not_mem_nil
  | cons id rest ih =>
    obtain ⟨hfirst, hrest⟩ := List.pairwise_cons.mp hids
    have hcons : (id :: rest).forM flushPage = flushPage id >>= fun _ => rest.forM flushPage := rfl
    rw [hcons, Act.on_bind]
    cases hid : p.buffer.cached? id with
    | none =>
      rw [on_flushPage_none hid]
      refine ih hp entries hrest hentries hcached
        (fun id' hid' => hall id' (List.mem_cons_of_mem _ hid')) fun e he => ?_
      refine (List.mem_cons.mp (hlisted e he)).resolve_left fun heq => ?_
      cases (heq ▸ hid).symm.trans (hcached e he)
    | some f =>
      -- Both lists ascend, so an identifier that is cached heads the entries that are left.
      obtain ⟨entries', rfl⟩ : ∃ entries', entries = (id, f) :: entries' := by
        have hmem := hall id List.mem_cons_self f hid
        cases entries with
        | nil => cases hmem
        | cons e entries' =>
          rcases List.mem_cons.mp hmem with heq | hmem
          · exact ⟨entries', heq ▸ rfl⟩
          · have hlt := (List.pairwise_cons.mp hentries).1 (id, f) hmem
            rcases List.mem_cons.mp (hlisted e List.mem_cons_self) with heq | hin
            · exact absurd (heq ▸ hlt) (Nat.lt_irrefl _)
            · exact absurd hlt (Nat.lt_asymm (hfirst e.1 hin))
      obtain ⟨hhead, htail⟩ := List.pairwise_cons.mp hentries
      have hmap : (((id, f) :: entries').map Prod.snd).forM flush =
          flush f >>= fun _ => (entries'.map Prod.snd).forM flush := rfl
      rw [hmap, Act.on_bind, on_flush hid]
      obtain ⟨result, p₁, hon, hmoves, hsame⟩ := flush_cases hp ⟨0⟩ hid
      rw [on_flush hid] at hon
      rw [hon]
      rcases result with e | u
      · rfl
      refine ih (hmoves.coherent hp) entries' hrest htail
        (fun e he => (hsame e.1).trans (hcached e (List.mem_cons_of_mem _ he)))
        (fun id' hid' f' hf' => ?_) fun e he => ?_
      · have hmem := hall id' (List.mem_cons_of_mem _ hid') f' ((hsame id').symm.trans hf')
        refine (List.mem_cons.mp hmem).resolve_left fun heq => ?_
        have hlt := hfirst id' hid'
        rw [(Prod.mk.inj heq).1] at hlt
        exact absurd hlt (Nat.lt_irrefl _)
      · have hmem := hlisted e (List.mem_cons_of_mem _ he)
        refine (List.mem_cons.mp hmem).resolve_left fun heq => ?_
        have hlt := hhead e he
        rw [heq] at hlt
        exact absurd hlt (Nat.lt_irrefl _)

theorem on_flushAll (hp : Coherent anyone p) {ids : SortedSet PageId}
    (hall : ∀ id, p.buffer.cached? id ≠ none → id ∈ ids) :
    flushAll.on p = (ids.toList.forM flushPage).on p := by
  have hcached : ∀ e ∈ p.buffer.cache.entries, p.buffer.cached? e.1 = some e.2 :=
    fun e he => SortedMap.get?_eq_some.mpr he
  refine forM_flush hp ids.toList p.buffer.cache.entries ids.toList_ascending
    p.buffer.cache.ascending hcached (fun id _ f hf => SortedMap.get?_eq_some.mp hf) fun e he => ?_
  refine SortedSet.mem_toList.mpr (hall e.1 ?_)
  rw [hcached e he]
  exact nofun

theorem agree_flushAll (h : p.Twins q) : Act.Agree Twins (flushAll.on p) (flushAll.on q) := by
  have hkeys : ∀ (p : Pool) id, p.buffer.cached? id ≠ none → id ∈ p.buffer.cache.keys :=
    fun p id hid => SortedMap.mem_keys.mpr (Option.isSome_iff_ne_none.mpr hid)
  rw [on_flushAll h.first.coherent fun id hid => SortedSet.mem_ofList.mpr
      (List.mem_append_left q.buffer.cache.keys (hkeys p id hid)),
    on_flushAll h.second.coherent fun id hid => SortedSet.mem_ofList.mpr
      (List.mem_append_right p.buffer.cache.keys (hkeys q id hid))]
  exact agree_forM (fun id p q h => agree_flushPage h id) _ h

end PagedHeap.Pool
