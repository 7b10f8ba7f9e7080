import PagedHeap.Proofs.Database.Schedules

/-!
# Isolation

A transaction that has fetched a page holds it to its end, and all that time the page shows what it
was then, changed by the transaction's own operations only, wherever the page is.
-/

namespace PagedHeap

open Database

/-- The operations of a transaction among the events. -/
def operationsIn (t : TxnId) (events : List Event) : List RowOp :=
  events.filterMap fun
    | .changed u op => if u = t then some op else none
    | _ => none

def Unended (t : TxnId) (events : List Event) : Prop :=
  ∀ committed, .ended t committed ∉ events

/-- What the fetches of a run have told, and what is known from them. -/
structure Informed (events : List Event) (d : Database) : Prop where
  known : ∀ before t page mid, events = before ++ .fetched t page :: mid → Unended t mid →
    ∃ img, RowOp.replay? page.id (operationsIn t mid) page.image = some img ∧
      d.pool.Shows page.id img ∧ d.holds page.id t
  told : ∀ before t page mid page' after,
    events = (before ++ .fetched t page :: mid) ++ .fetched t page' :: after → page'.id = page.id →
      Unended t mid →
        RowOp.replay? page.id (operationsIn t mid) page.image = some page'.image
  dirtier : ∀ t page, .fetched t page ∈ events → page.dirtier = none ∨ page.dirtier = some t

variable {upkeep : Prop} {t u : TxnId} {d d' : Database} {id : PageId} {img : Image} {page : Page}
  {events new before mid : List Event} {ops : List RowOp}

theorem mem_operationsIn {op : RowOp} : op ∈ operationsIn t events ↔ .changed t op ∈ events := by
  rw [operationsIn, List.mem_filterMap]
  constructor
  · rintro ⟨event, hmem, heq⟩
    cases event with
    | changed u op' =>
      simp only [Option.ite_none_right_eq_some, Option.some.injEq] at heq
      obtain ⟨rfl, rfl⟩ := heq
      exact hmem
    | fetched u page => cases heq
    | ended u committed => cases heq
  · intro hmem
    exact ⟨_, hmem, if_pos rfl⟩

theorem operationsIn_append (t : TxnId) (events new : List Event) :
    operationsIn t (events ++ new) = operationsIn t events ++ operationsIn t new :=
  List.filterMap_append

theorem operationsIn_changed_self (t : TxnId) (ops : List RowOp) :
    operationsIn t (ops.map (.changed t)) = ops := by
  induction ops with
  | nil => rfl
  | cons op ops ih =>
    have hcons : operationsIn t (.changed t op :: ops.map (.changed t)) =
        op :: operationsIn t (ops.map (.changed t)) := List.filterMap_cons_some (if_pos rfl)
    rw [List.map_cons, hcons, ih]

theorem operationsIn_changed_ne (hne : u ≠ t) (ops : List RowOp) :
    operationsIn t (ops.map (.changed u)) = [] := by
  refine List.filterMap_eq_nil_iff.mpr fun event hevent => ?_
  obtain ⟨op, -, rfl⟩ := List.mem_map.mp hevent
  exact if_neg hne

theorem unended_append : Unended t (events ++ new) ↔ Unended t events ∧ Unended t new := by
  simp only [Unended, List.mem_append, not_or, forall_and]

/-- Where an event stands in a list that was made longer. -/
theorem eq_append_cons {x : Event} (h : events ++ new = before ++ x :: mid) :
    (∃ rest, events = before ++ x :: rest ∧ mid = rest ++ new) ∨
      ∃ pre, before = events ++ pre ∧ new = pre ++ x :: mid := by
  rcases List.append_eq_append_iff.mp h with ⟨pre, hbefore, hnew⟩ | ⟨rest, hevents, hrest⟩
  · exact Or.inr ⟨pre, hbefore, hnew⟩
  · cases rest with
    | nil => exact Or.inr ⟨[], by simpa using hevents.symm, hrest.symm⟩
    | cons y rest =>
      obtain ⟨rfl, rfl⟩ := List.cons.inj hrest
      exact Or.inl ⟨rest, hevents, rfl⟩

namespace Effect

/-- A fetch comes alone, and tells what is cached then. -/
theorem of_fetched (h : Effect upkeep d d' new) {pre : List Event}
    (hnew : new = pre ++ .fetched t page :: mid) :
    pre = [] ∧ mid = [] ∧ d'.pool.cachedPage? page.id = some page ∧ d'.holds page.id t := by
  have hmem : .fetched t page ∈ new := by simp [hnew]
  cases h with
  | served u ops _ _ _ => simp at hmem
  | fetched u page' hmoves hholds howns hcached hheld =>
    obtain ⟨rfl, rfl⟩ := Event.fetched.inj (List.mem_singleton.mp hmem)
    have hlength := congrArg List.length hnew
    simp only [List.length_append, List.length_cons, List.length_nil] at hlength
    have hpre : pre = [] := List.length_eq_zero_iff.mp (by omega)
    have hmid : mid = [] := List.length_eq_zero_iff.mp (by omega)
    exact ⟨hpre, hmid, hcached, hheld⟩
  | ended u committed _ _ _ => simp at hmem

/-- A page that a transaction holds shows what its own operations make of it. -/
theorem shows (h : Effect upkeep d d' new) (hl : ∀ id, (d.locks.grantOf id).WellFormed)
    (hl' : ∀ id, (d'.locks.grantOf id).WellFormed) (hp : Pool.Coherent d.owns d.pool)
    (hunended : Unended t new) (hshows : d.pool.Shows id img) (hheld : d.holds id t) :
    ∃ img', RowOp.replay? id (operationsIn t new) img = some img' ∧ d'.pool.Shows id img' ∧
      d'.holds id t := by
  cases h with
  | served u ops hmoves hholds howns =>
    have hp' := hp.mono howns
    obtain ⟨img', hreplay, hshows'⟩ := hmoves.shows hp' hshows
    by_cases hu : u = t
    · subst hu
      rw [operationsIn_changed_self]
      exact ⟨img', hreplay, hshows', hholds id u hheld⟩
    · -- Whoever operates on the page would have it for itself.
      have hothers : ∀ op ∈ ops, op.rid.page ≠ id := by
        rintro op hop rfl
        have howner := hmoves.owns_of_mem hp' op hop
        exact hu ((hl' _).eq_of_owns howner (hholds _ t hheld)).symm
      rw [RowOp.replay?_of_forall_ne hothers] at hreplay
      obtain rfl := Option.some.inj hreplay
      rw [operationsIn_changed_ne hu]
      exact ⟨img, rfl, hshows', hholds id t hheld⟩
  | fetched u page hmoves hholds howns _ _ =>
    obtain ⟨img', hreplay, hshows'⟩ := hmoves.shows (hp.mono howns) hshows
    exact ⟨img', hreplay, hshows', hholds id t hheld⟩
  | ended u committed _ hending hholds =>
    have hne : t ≠ u := by
      rintro rfl
      exact hunended committed (List.mem_singleton.mpr rfl)
    have hq : ¬ d.owns id u := fun howns => hne ((hl id).eq_of_owns howns hheld)
    exact ⟨img, rfl, hending.shows hp hq hshows, hholds id t hne hheld⟩

end Effect

namespace Informed

theorem create (capacity : Nat) (journal : Journal) (disk : Disk) :
    Informed [] (Database.create capacity journal disk) where
  known before t page mid heq := by simp at heq
  told before t page mid page' after heq := by simp at heq
  dirtier t page hmem := absurd hmem List.not_mem_nil

theorem step (h : Informed events d) (heffect : Effect upkeep d d' new)
    (hl : ∀ id, (d.locks.grantOf id).WellFormed) (hl' : ∀ id, (d'.locks.grantOf id).WellFormed)
    (hp : Pool.Coherent d.owns d.pool) (hp' : Pool.Coherent d'.owns d'.pool) :
    Informed (events ++ new) d' where
  known before t page mid heq hunended := by
    rcases eq_append_cons heq with ⟨rest, hevents, rfl⟩ | ⟨pre, -, hnew⟩
    · obtain ⟨hrest, hnew⟩ := unended_append.mp hunended
      obtain ⟨img, hreplay, hshows, hheld⟩ := h.known before t page rest hevents hrest
      obtain ⟨img', hreplay', hshows', hheld'⟩ := heffect.shows hl hl' hp hnew hshows hheld
      refine ⟨img', ?_, hshows', hheld'⟩
      rw [operationsIn_append, RowOp.replay?_append, hreplay]
      exact hreplay'
    · obtain ⟨-, rfl, hcached, hheld⟩ := heffect.of_fetched hnew
      exact ⟨page.image, rfl, Or.inl (Pool.content?_of_cached hcached), hheld⟩
  told before t page mid page' after heq hid hunended := by
    rcases eq_append_cons heq with ⟨rest, hevents, -⟩ | ⟨pre, hbefore, hnew⟩
    · exact h.told before t page mid page' rest hevents hid hunended
    · obtain ⟨rfl, rfl, hcached, -⟩ := heffect.of_fetched hnew
      rw [List.append_nil] at hbefore
      obtain ⟨img, hreplay, hshows, hheld⟩ := h.known before t page mid hbefore.symm hunended
      obtain rfl : new = [.fetched t page'] := hnew
      have hend : Unended t [.fetched t page'] := fun committed hmem => by simp at hmem
      obtain ⟨img', hsame, hshows', -⟩ := heffect.shows hl hl' hp hend hshows hheld
      obtain rfl : img = img' := Option.some.inj hsame
      rw [hid] at hcached
      rcases hshows' with hcontent | ⟨hnone, -⟩
      · rw [Pool.content?_of_cached hcached] at hcontent
        rw [hreplay, Option.some.inj hcontent]
      · rw [hnone] at hcached
        cases hcached
  dirtier t page hmem := by
    rcases List.mem_append.mp hmem with hmem | hmem
    · exact h.dirtier t page hmem
    · obtain ⟨pre, mid, hnew⟩ := List.append_of_mem hmem
      obtain ⟨-, -, hcached, hheld⟩ := heffect.of_fetched hnew
      cases hdirty : page.dirtier with
      | none => exact Or.inl rfl
      | some u =>
        have howns := hp'.owned page.id page u hcached hdirty
        exact Or.inr (congrArg some ((hl' page.id).eq_of_owns howns hheld).symm)

end Informed

/-- In every orderly run over files that open, a transaction that fetches a page twice without
ending in between finds the page as it was, changed by its own operations only; it is never handed a
page that somebody else has changed; and whoever has changed a cached page has it for itself. -/
theorem fetches_isolated {capacity : Nat} {journal : Journal} {disk : Disk}
    {occurrences : List Occurrence} {m : Moment} (hdisk : disk.Mounted)
    (hrun : Run ⟨[], Database.create capacity journal disk⟩ occurrences m)
    (horderly : OrderlyRun True occurrences) :
    (∀ before t page mid page' after,
      (Ledger.of occurrences).events =
        (before ++ .fetched t page :: mid) ++ .fetched t page' :: after →
      page'.id = page.id → Unended t mid →
        RowOp.replay? page.id (operationsIn t mid) page.image = some page'.image) ∧
    (∀ t page, .fetched t page ∈ (Ledger.of occurrences).events →
      page.dirtier = none ∨ page.dirtier = some t) ∧
    ∀ id page t, m.db.pool.cachedPage? id = some page → page.dirtier = some t →
      (m.db.locks.grantOf id).Owns t := by
  obtain ⟨hm, hinformed⟩ := hrun.induct hdisk horderly (P := fun l m => Informed l.events m.db)
    (Informed.create capacity journal disk) fun l l' m m' hinformed hm hsequel => by
      obtain ⟨events, hevents, heffect⟩ := hsequel.effect
      rw [hevents]
      exact hinformed.step heffect hm.sound.wellFormed hsequel.consistent.sound.wellFormed
        hm.coherent hsequel.consistent.coherent
  exact ⟨hinformed.told, hinformed.dirtier, hm.coherent.owned⟩

/-- A page is fetched, dropped by another reader's abort, changed, flushed, and fetched again. -/
def rereading : List Command :=
  let page : PageId := ⟨⟨1⟩, 0⟩
  [.insert ⟨3⟩ ⟨1⟩ [7] .tracked, .commit ⟨3⟩, .fetch ⟨1⟩ page .shared none,
    .fetch ⟨2⟩ page .shared none, .abort ⟨2⟩, .insert ⟨1⟩ ⟨1⟩ [8] .tracked, .flushAll,
    .fetch ⟨1⟩ page .shared none, .insert ⟨1⟩ ⟨1⟩ [9] .tracked]

def oneTable : Disk :=
  (∅ : Disk).addTable ⟨1⟩

/-- What the reader was shown each time, and how it changed the page in between. -/
def rereadings : List Event → Option (Page × RowOp × Page)
  | [.changed ⟨3⟩ _, .ended ⟨3⟩ true, .fetched ⟨1⟩ page, .fetched ⟨2⟩ _, .ended ⟨2⟩ false,
      .changed ⟨1⟩ op, .fetched ⟨1⟩ page', .changed ⟨1⟩ _] => some (page, op, page')
  | _ => none

/-- The reader is shown one row, and in the end that row and the one that it has put itself.  What it
was shown first, changed by its own operations, is what it is shown then, and it has the page for
itself. -/
theorem fetches_isolated_rereading :
    ∃ occurrences m before page mid page' after,
      Run ⟨[], Database.create 1 Journal.fresh oneTable⟩ occurrences m ∧
      OrderlyRun True occurrences ∧
      (Ledger.of occurrences).events =
        (before ++ .fetched ⟨1⟩ page :: mid) ++ .fetched ⟨1⟩ page' :: after ∧
      page.rows.toOption = some [(⟨⟨⟨1⟩, 0⟩, ⟨0⟩⟩, [7])] ∧
      page'.rows.toOption = some [(⟨⟨⟨1⟩, 0⟩, ⟨0⟩⟩, [7]), (⟨⟨⟨1⟩, 0⟩, ⟨1⟩⟩, [8])] ∧
      page'.id = page.id ∧ Unended ⟨1⟩ mid ∧ .ended ⟨2⟩ false ∈ mid ∧
      operationsIn ⟨1⟩ mid = [.put ⟨⟨⟨1⟩, 0⟩, ⟨1⟩⟩ [8]] ∧
      RowOp.replay? page.id (operationsIn ⟨1⟩ mid) page.image = some page'.image ∧
      (m.db.locks.grantOf ⟨⟨1⟩, 0⟩).Owns ⟨1⟩ := by
  have hdirty : ((Moment.obeying ⟨[], Database.create 1 Journal.fresh oneTable⟩
      rereading).2.db.pool.cachedPage? ⟨⟨1⟩, 0⟩).map Page.dirtier = some (some ⟨1⟩) := by
    decide +kernel
  have htold : (rereadings (Ledger.of (Moment.obeying
      ⟨[], Database.create 1 Journal.fresh oneTable⟩ rereading).1).events).any (fun x =>
        x.1.rows.toOption = some [(⟨⟨⟨1⟩, 0⟩, ⟨0⟩⟩, [7])] ∧
          x.2.2.rows.toOption = some [(⟨⟨⟨1⟩, 0⟩, ⟨0⟩⟩, [7]), (⟨⟨⟨1⟩, 0⟩, ⟨1⟩⟩, [8])] ∧
          x.2.2.id = x.1.id ∧ x.2.1 = .put ⟨⟨⟨1⟩, 0⟩, ⟨1⟩⟩ [8]) = true := by
    decide +kernel
  have hrun := Moment.run_obeying ⟨[], Database.create 1 Journal.fresh oneTable⟩ rereading
  have horderly : OrderlyRun True (Moment.obeying ⟨[], Database.create 1 Journal.fresh oneTable⟩
      rereading).1 := by
    have hall : ∀ c ∈ rereading, c.IsOrderly := by simp [rereading, Command.IsOrderly]
    exact Moment.orderlyRun_obeying (fun c hmem => ⟨hall c hmem, fun _ => trivial⟩) _
  generalize Moment.obeying ⟨[], Database.create 1 Journal.fresh oneTable⟩ rereading = done
    at hdirty htold hrun horderly
  obtain ⟨hisolated, -, howned⟩ := fetches_isolated (Disk.mounted_empty.addTable ⟨1⟩) hrun horderly
  obtain ⟨last, hcached, hpage⟩ := Option.map_eq_some_iff.mp hdirty
  unfold rereadings at htold
  split at htold
  case h_2 => cases htold
  case h_1 old page other op page' new hevents =>
    obtain ⟨hrows, hrows', hid, rfl⟩ := of_decide_eq_true htold
    obtain ⟨mid, hmid⟩ : ∃ mid : List Event, mid = [.fetched ⟨2⟩ other, .ended ⟨2⟩ false,
      .changed ⟨1⟩ (.put ⟨⟨⟨1⟩, 0⟩, ⟨1⟩⟩ [8])] := ⟨_, rfl⟩
    have hsplit : (Ledger.of done.1).events =
        ([.changed ⟨3⟩ old, .ended ⟨3⟩ true] ++ .fetched ⟨1⟩ page :: mid) ++
          .fetched ⟨1⟩ page' :: [.changed ⟨1⟩ new] := by
      rw [hevents, hmid]
      rfl
    have hunended : Unended ⟨1⟩ mid := by simp [Unended, hmid]
    exact ⟨_, _, _, page, mid, page', _, hrun, horderly, hsplit, hrows, hrows', hid, hunended,
      by simp [hmid], by rw [hmid]; rfl, hisolated _ ⟨1⟩ page mid page' _ hsplit hid hunended,
      howned _ last ⟨1⟩ hcached hpage⟩

end PagedHeap
