import PagedHeap.Proofs.Database.Legs
import PagedHeap.Proofs.Lock.Books
import PagedHeap.Proofs.Pool.Astray

/-!
# Pages in hand

A transaction whose store has business of its own has a changed page in hand, and may fall asleep
with it.  It has the page for itself, so whatever others do until it goes on, the frame stays safe
and nobody changes the page in it.
-/

namespace PagedHeap

open Database

namespace Database

/-- The frame is safe, and the transaction has its page for itself. -/
structure InHand (d : Database) (t : TxnId) (f : FrameId) : Prop where
  safe : d.pool.Safe f
  owned : d.owns (d.pool.page f).id t

/-- What is done in the name of a transaction between two of its lock requests. -/
structure ActedFor (t : TxnId) (d d' : Database) : Prop where
  locks : d'.locks = d.locks
  calls : d'.calls = d.calls
  cursors : CursorsKept d d'
  pool : Pool.Respects (d.owns · t) d.pool d'.pool

end Database

/-- The call changes pages under locks that are exclusive, hands back a page that it has in hand, or
scans with a cursor of its transaction. -/
structure Call.Apt (c : Call) (d : Database) : Prop where
  insert : ∀ row ahead route, c.errand = .insert row ahead route → c.mode = .exclusive
  delete : ∀ slot route, c.errand = .delete slot route → c.mode = .exclusive
  detour : ∀ f rest reply, c.errand = .detour f rest reply → d.InHand c.txn f
  scan : ∀ id harvest, c.errand = .scan id harvest →
    ∃ cursor, d.cursors.get? id = some cursor ∧ cursor.txn = c.txn

/-- If another lock is wanted, then by an apt call of the transaction. -/
def Progress.Apt (t : TxnId) (progress : Progress) (d : Database) : Prop :=
  ∀ c, progress = .wants c → c.txn = t ∧ c.Apt d

variable {t u : TxnId} {d d' d'' : Database} {c : Call} {f g : FrameId} {id : PageId}
  {mine : PageId → Prop} {reply : Reply}

namespace Database.ActedFor

theorem refl (t : TxnId) (d : Database) : ActedFor t d d :=
  ⟨rfl, rfl, CursorsKept.refl d, .refl d.pool⟩

theorem owns_eq (h : ActedFor t d d') : d'.owns = d.owns := by
  funext id u
  rw [owns, owns, h.locks]

theorem trans (h : ActedFor t d d') (h' : ActedFor t d' d'') : ActedFor t d d'' where
  locks := h'.locks.trans h.locks
  calls := h'.calls.trans h.calls
  cursors := h.cursors.trans h'.cursors
  pool := by
    have hpool := h'.pool
    rw [h.owns_eq] at hpool
    exact h.pool.trans hpool

instance : Std.Refl (ActedFor t) := ⟨refl t⟩

instance : Trans (ActedFor t) (ActedFor t) (ActedFor t) := ⟨trans⟩

theorem onPool {p : Pool} (h : Pool.Respects (d.owns · t) d.pool p) :
    ActedFor t d (d.withPool p) :=
  ⟨rfl, rfl, CursorsKept.refl d, h⟩

theorem holders (d : Database) (holders : SortedMap Holder FrameId) :
    ActedFor t d (d.withPool (d.pool.withBuffer { d.pool.buffer with holders })) :=
  .onPool (Pool.respects_holders d.pool holders)

theorem setCursor {id : CursorId} {cursor cursor' : Cursor}
    (hget : d.cursors.get? id = some cursor) (halike : cursor.Alike cursor') :
    ActedFor t d (d.setCursor id cursor') :=
  ⟨rfl, rfl, (acted_setCursor (t := t) hget halike).cursors, .refl d.pool⟩

theorem updateCursor (d : Database) (id : CursorId) {f : Cursor → Cursor}
    (hf : ∀ cursor : Cursor, cursor.Alike (f cursor)) : ActedFor t d (d.updateCursor id f) := by
  rw [Database.updateCursor]
  split
  case h_1 cursor hget => exact .setCursor hget (hf cursor)
  case h_2 => exact .refl t d

theorem rooted (h : ActedFor t d d') (hd : d.pool.Rooted) : d'.pool.Rooted :=
  h.pool.rooted hd

end Database.ActedFor

namespace Database.InHand

/-- Nobody changes a page that the transaction has in hand. -/
theorem after (h : d.InHand t f) (hd : d.pool.Rooted) (hpool : Pool.Respects mine d.pool d'.pool)
    (hmine : ∀ id, d.owns id t → ¬ mine id) (howns : ∀ id, d.owns id t → d'.owns id t) :
    d'.InHand t f ∧ Pool.Unchanged f d.pool d'.pool := by
  obtain ⟨hsafe, hsame⟩ := hpool.safe hd f h.safe (hmine _ h.owned)
  refine ⟨⟨hsafe, ?_⟩, hsame⟩
  rw [hsame.id]
  exact howns _ h.owned

/-- Fetching and discarding pages changes none of them. -/
theorem onPool {p : Pool} (h : d.InHand t f) (hd : d.pool.Rooted)
    (hpool : Pool.Respects (fun _ => False) d.pool p) :
    (d.withPool p).InHand t f ∧ Pool.Unchanged f d.pool p :=
  h.after hd hpool (fun _ _ h => h) fun _ h => h

/-- A cached page that the transaction has for itself. -/
theorem of_cached (hd : d.pool.Rooted) (hf : d.pool.buffer.cached? id = some f)
    (howns : d.owns id t) : d.InHand t f := by
  refine ⟨hd.safe hf, ?_⟩
  rw [hd.page_id hf]
  exact howns

end Database.InHand

/-! ## Calls that are apt -/

namespace Call.Apt

theorem of_fetch {keep : Option HandleId} (herrand : c.errand = .fetch keep) : c.Apt d where
  insert _ _ _ h := by cases herrand.symm.trans h
  delete _ _ h := by cases herrand.symm.trans h
  detour _ _ _ h := by cases herrand.symm.trans h
  scan _ _ h := by cases herrand.symm.trans h

theorem of_exclusive (hmode : c.mode = .exclusive)
    (hdetour : ∀ f rest reply, c.errand ≠ .detour f rest reply)
    (hscan : ∀ id harvest, c.errand ≠ .scan id harvest) : c.Apt d where
  insert _ _ _ _ := hmode
  delete _ _ _ := hmode
  detour f rest reply h := absurd h (hdetour f rest reply)
  scan id harvest h := absurd h (hscan id harvest)

theorem of_detour {rest : List Detour} (herrand : c.errand = .detour f rest reply)
    (h : d.InHand c.txn f) : c.Apt d where
  insert _ _ _ h := by cases herrand.symm.trans h
  delete _ _ h := by cases herrand.symm.trans h
  detour _ _ _ h' := by
    obtain ⟨rfl, -, -⟩ := Errand.detour.inj (herrand.symm.trans h')
    exact h
  scan _ _ h := by cases herrand.symm.trans h

theorem of_scan {id : CursorId} {harvest : Harvest} {cursor : Cursor}
    (herrand : c.errand = .scan id harvest) (hget : d.cursors.get? id = some cursor)
    (htxn : cursor.txn = c.txn) : c.Apt d where
  insert _ _ _ h := by cases herrand.symm.trans h
  delete _ _ h := by cases herrand.symm.trans h
  detour _ _ _ h := by cases herrand.symm.trans h
  scan _ _ h := by
    obtain ⟨rfl, -⟩ := Errand.scan.inj (herrand.symm.trans h)
    exact ⟨cursor, hget, htxn⟩

/-- What becomes of the page in hand and of the cursors of the transaction decides. -/
theorem mono (h : c.Apt d) (hhand : ∀ f, d.InHand c.txn f → d'.InHand c.txn f)
    (hcursors : ∀ id cursor, d.cursors.get? id = some cursor → cursor.txn = c.txn →
      ∃ cursor', d'.cursors.get? id = some cursor' ∧ cursor'.txn = c.txn) : c.Apt d' where
  insert := h.insert
  delete := h.delete
  detour f rest reply herrand := hhand f (h.detour f rest reply herrand)
  scan id harvest herrand := by
    obtain ⟨cursor, hget, htxn⟩ := h.scan id harvest herrand
    exact hcursors id cursor hget htxn

end Call.Apt

/-! ## Between two lock requests -/

/-- The action stays within what its transaction may do, and what it answers is good. -/
abbrev Acts {α : Type} (t : TxnId) (good : α → Database → Prop) (d : Database)
    (act : Act Database α) : Prop :=
  act.Leads (ActedFor t) good d

namespace Progress

theorem apt_finished (reply : Reply) (d : Database) : (Progress.finished reply).Apt t d :=
  fun _ h => by cases h

theorem apt_wants (hc : c.Apt d) : (Progress.wants c).Apt c.txn d := by
  intro c' heq
  obtain rfl := Progress.wants.inj heq
  exact ⟨rfl, hc⟩

end Progress

theorem acts_onPool {α : Type} {good : α → Database → Prop} {act : Act Pool α}
    (h : Pool.Respects (d.owns · t) d.pool (act.on d.pool).2)
    (hgood : ∀ a p, act.on d.pool = (.ok (.ok a), p) → good a (d.withPool p)) :
    Acts t good d (onPool act) :=
  ⟨.onPool h, fun a ha => hgood a _ (Prod.ext ha rfl)⟩

/-- A fetched page is cached in the frame that the fetch tells. -/
theorem acts_fetch (hd : d.pool.Rooted) (id : PageId) :
    Acts t (fun f d' => d'.pool.buffer.cached? id = some f) d (onPool (Pool.fetch id)) :=
  acts_onPool (Pool.respects_fetch id d.pool) fun _ _ hon => Pool.cached?_of_fetch hd.framed hon

/-- The page in hand comes back, or its store goes on with its business. -/
theorem acts_handBack (hd : d.pool.Rooted) (hf : d.InHand t f) (rest : List Detour)
    (reply : Reply) : Acts t (Progress.Apt t) d (handBack t f reply rest) := by
  induction rest generalizing d with
  | nil =>
    have hletGo : ActedFor t d (d.letGo (.operation t)) := .holders d _
    obtain ⟨hf₁, -⟩ := hf.onPool hd (Pool.respects_holders d.pool _)
    have htrack : Acts t (fun _ _ => True) (d.letGo (.operation t)) (onPool (Pool.track f t)) :=
      acts_onPool (Pool.respects_track (hletGo.rooted hd) hf₁.safe hf₁.owned t) fun _ _ _ => trivial
    exact .after_modify hletGo (htrack.bind fun _ d₂ _ _ =>
      .of_pure (Progress.apt_finished reply d₂))
  | cons detour rest ih =>
    cases detour with
    | letGo =>
      have hdiscard : ActedFor t d (d.withPool (d.pool.discard (d.pool.page f).id)) :=
        .onPool (Pool.respects_discard d.pool _)
      exact .after_modify hdiscard
        (ih (hdiscard.rooted hd) (hf.onPool hd (Pool.respects_discard d.pool _)).1)
    | visit page mode => exact .of_pure (Progress.apt_wants (.of_detour rfl hf))

theorem acts_afterChange (hd : d.pool.Rooted) (hf : d.InHand t f) (table : TableId)
    (reply : Reply) : Acts t (Progress.Apt t) d (afterChange t table f reply) := by
  have hhold : ActedFor t d (d.hold (.operation t) f) := .holders d _
  obtain ⟨hf₁, -⟩ := hf.onPool hd (Pool.respects_holders d.pool _)
  refine .after_modify hhold (.after_get ?_)
  split
  case h_1 => exact acts_handBack (hhold.rooted hd) hf₁ [] reply
  case h_2 store _ => exact acts_handBack (hhold.rooted hd) hf₁ store.detours reply

theorem acts_insertFrom (d : Database) (t : TxnId) (table : TableId) (pageNo : UInt32) (row : Row)
    (ahead : Nat) (route : Route) :
    Acts t (Progress.Apt t) d (insertFrom t table pageNo row ahead route) := by
  have hwants : ∀ (d : Database) (page : PageId) (ahead : Nat), Acts t (Progress.Apt t) d
      (pure (Progress.wants ⟨t, page, .exclusive, .insert row ahead route⟩)) :=
    fun d page ahead => .of_pure (Progress.apt_wants
      (.of_exclusive rfl (fun _ _ _ h => by cases h) fun _ _ h => by cases h))
  cases ahead with
  | zero =>
    have happend : Acts t (fun _ _ => True) d (onPool (Pool.appendPage table)) :=
      acts_onPool (Pool.respects_append table d.pool) fun _ _ _ => trivial
    exact happend.bind fun page d' _ _ => hwants d' page 0
  | succ ahead => exact hwants d _ ahead

/-- Only the tracked ways ask the catalog first. -/
theorem Act.Leads.after_tracked {β : Type} {good : β → Database → Prop} {route : Route}
    {α : Type} {x : Database → Except Error α} {act : Act Database β} (h : Acts t good d act) :
    Acts t good d (if route = .tracked then do let _ ← Act.ofResult (x (← get)); act else act) := by
  split
  case isTrue => exact .after_get (.after_ofResult fun _ _ => h)
  case isFalse => exact h

theorem acts_beginInsert (d : Database) (t : TxnId) (table : TableId) (row : Row) (route : Route) :
    Acts t (Progress.Apt t) d (beginInsert t table row route) := by
  rw [beginInsert]
  refine .after_tracked ?_
  split
  case isTrue => exact .of_throw
  case isFalse =>
    exact .after_get (.after_ofResult fun count _ => acts_insertFrom d t table 0 row count.toNat route)

theorem acts_beginDelete (d : Database) (t : TxnId) (table : TableId) (rid : RecordId)
    (route : Route) : Acts t (Progress.Apt t) d (beginDelete t table rid route) := by
  rw [beginDelete]
  refine .after_tracked (.after_get ?_)
  cases d.pool.disk.store? table with
  | none => exact .of_throw
  | some store =>
    exact .after_ofResult fun _ _ => .of_pure (Progress.apt_wants
      (.of_exclusive rfl (fun _ _ _ h => by cases h) fun _ _ h => by cases h))

/-- A cached page of the transaction is changed, and stays in its frame. -/
theorem acts_onFrame {α : Type} {act : Act Pool α}
    (h : Pool.Respects (d.owns · t) d.pool (act.on d.pool).2)
    (hcached : (act.on d.pool).2.buffer.cached? id = some f) :
    Acts t (fun _ d' => d'.pool.buffer.cached? id = some f) d (onPool act) :=
  acts_onPool h fun _ _ hon => by rwa [hon] at hcached

theorem acts_insertHere (hd : d.pool.Rooted) (howns : d.owns c.page c.txn) (row : Row) (ahead : Nat)
    (route : Route) : Acts c.txn (Progress.Apt c.txn) d (insertHere c row ahead route) := by
  refine (acts_fetch hd c.page).bind fun f d₁ hwithin hf => ?_
  have hd₁ := hwithin.rooted hd
  have hf₁ : d₁.InHand c.txn f := .of_cached hd₁ hf (hwithin.owns_eq ▸ howns)
  refine (acts_onFrame (Pool.respects_placeRow hf₁.safe.present hf₁.owned c.txn row) hf).bind
    fun placed d₂ hwithin₂ hf₂ => ?_
  have hd₂ := hwithin₂.rooted hd₁
  cases placed with
  | none => exact acts_insertFrom d₂ c.txn c.page.table _ row ahead route
  | some rid =>
    cases route with
    | tracked =>
      exact acts_afterChange hd₂ (.of_cached hd₂ hf₂ (hwithin₂.owns_eq ▸ hwithin.owns_eq ▸ howns))
        c.page.table _
    | direct => exact .of_pure (Progress.apt_finished _ d₂)

theorem acts_deleteHere (hd : d.pool.Rooted) (howns : d.owns c.page c.txn) (slot : SlotId)
    (route : Route) : Acts c.txn (Progress.Apt c.txn) d (deleteHere c slot route) := by
  refine (acts_fetch hd c.page).bind fun f d₁ hwithin hf => ?_
  have hd₁ := hwithin.rooted hd
  have hf₁ : d₁.InHand c.txn f := .of_cached hd₁ hf (hwithin.owns_eq ▸ howns)
  refine (acts_onFrame (Pool.respects_removeRow hf₁.safe.present hf₁.owned c.txn slot) hf).bind
    fun _ d₂ hwithin₂ hf₂ => ?_
  have hd₂ := hwithin₂.rooted hd₁
  cases route with
  | tracked =>
    exact acts_afterChange hd₂ (.of_cached hd₂ hf₂ (hwithin₂.owns_eq ▸ hwithin.owns_eq ▸ howns))
      c.page.table _
  | direct => exact .of_pure (Progress.apt_finished _ d₂)

/-! ## Fetching and scanning -/

theorem acts_fetchHere (hd : d.pool.Rooted) (keep : Option HandleId) :
    Acts c.txn (Progress.Apt c.txn) d (fetchHere c keep) := by
  refine (acts_fetch hd c.page).bind fun f d₁ _ _ => ?_
  cases keep with
  | none => exact .after_get (.of_pure (Progress.apt_finished _ d₁))
  | some handle =>
    exact .after_modify (.holders d₁ _) (.after_get (.of_pure (Progress.apt_finished _ _)))

theorem acts_scanFrom {id : CursorId} {cursor cursor' : Cursor}
    (hget : d.cursors.get? id = some cursor) (halike : cursor.Alike cursor') (harvest : Harvest) :
    Acts cursor.txn (Progress.Apt cursor.txn) d (scanFrom id cursor' harvest) := by
  rcases scanFrom_cases id cursor' harvest d with ⟨result, d', hon, -, hd'⟩ |
    ⟨cursor'', harvest', hon, halike', -⟩
  · have hwithin : ActedFor cursor.txn d d' := by
      rcases hd' with rfl | ⟨cursor'', rfl, halike'⟩
      · exact .refl _ d'
      · exact .setCursor hget (halike.trans halike')
    refine ⟨by rw [hon]; exact hwithin, fun progress hprogress => ?_⟩
    rw [hon] at hprogress
    cases result with
    | error e => cases hprogress
    | ok reply =>
      obtain rfl := Except.ok.inj (Except.ok.inj hprogress)
      exact Progress.apt_finished reply _
  · have hsame := halike.trans halike'
    refine ⟨by rw [hon]; exact .setCursor hget hsame, fun progress hprogress => ?_⟩
    rw [hon] at hprogress ⊢
    obtain rfl := Except.ok.inj (Except.ok.inj hprogress)
    rw [← hsame.txn]
    exact Progress.apt_wants (.of_scan rfl (SortedMap.get?_insert_self d.cursors id cursor'') rfl)

theorem acts_scanHere (hd : d.pool.Rooted) {id : CursorId} {cursor : Cursor}
    (hget : d.cursors.get? id = some cursor) (htxn : cursor.txn = c.txn) (harvest : Harvest) :
    Acts c.txn (Progress.Apt c.txn) d (scanHere c id harvest) := by
  refine (acts_fetch hd c.page).bind fun f d₁ hwithin _ => ?_
  obtain ⟨cursor₁, hget₁, halike⟩ := hwithin.cursors id cursor hget
  refine .after_get (.after_checked fun rows => .after_get ?_)
  have haccept : cursor₁.Alike (cursor₁.accept rows) := ⟨rfl, rfl⟩
  rw [hget₁, ← htxn, ← halike.txn]
  exact acts_scanFrom hget₁ haccept harvest

/-- A call that was granted its lock goes on with its errand. -/
theorem acts_proceed (hd : d.pool.Rooted) (hc : c.Apt d)
    (howns : c.mode = .exclusive → d.owns c.page c.txn) :
    Acts c.txn (Progress.Apt c.txn) d (proceed c) := by
  rw [proceed]
  split
  case h_1 keep _ => exact acts_fetchHere hd keep
  case h_2 row ahead route herrand =>
    exact acts_insertHere hd (howns (hc.insert row ahead route herrand)) row ahead route
  case h_3 slot route herrand =>
    exact acts_deleteHere hd (howns (hc.delete slot route herrand)) slot route
  case h_4 frame rest reply herrand =>
    have hfetch : Acts c.txn (fun _ d' => d'.InHand c.txn frame) d (onPool (Pool.fetch c.page)) :=
      acts_onPool (Pool.respects_fetch c.page d.pool) fun g p hon => by
        have hpool : Pool.Respects (fun _ => False) d.pool ((Pool.fetch c.page).on d.pool).2 :=
          Pool.respects_fetch c.page d.pool
        rw [hon] at hpool
        exact ((hc.detour frame rest reply herrand).onPool hd hpool).1
    exact hfetch.bind fun _ d₁ hwithin hf => acts_handBack (hwithin.rooted hd) hf rest reply
  case h_5 id harvest herrand =>
    obtain ⟨cursor, hget, htxn⟩ := hc.scan id harvest herrand
    exact acts_scanHere hd hget htxn harvest

/-! ## The turn of a call -/

namespace Database

/-- How far the turn of a transaction has changed the database. -/
structure Turned (t : TxnId) (d d' : Database) : Prop where
  owns : ∀ id u, d.owns id u → d'.owns id u
  calls : ∀ u, u ≠ t → d'.calls.get? u = d.calls.get? u
  cursors : CursorsKept d d'
  pool : Pool.Respects (d'.owns · t) d.pool d'.pool

namespace Turned

theorem trans (h : Turned t d d') (h' : Turned t d' d'') : Turned t d d'' where
  owns id u howns := h'.owns id u (h.owns id u howns)
  calls u hne := (h'.calls u hne).trans (h.calls u hne)
  cursors := h.cursors.trans h'.cursors
  pool := (h.pool.mono fun id howns => h'.owns id t howns).trans h'.pool

theorem of_within (h : ActedFor t d d') : Turned t d d' where
  owns id u howns := h.owns_eq ▸ howns
  calls u _ := by rw [h.calls]
  cursors := h.cursors
  pool := by
    rw [h.owns_eq]
    exact h.pool

theorem of_request {woken : List LockRequest} (hl : LockTable.Sound (c.request :: woken) d.locks) :
    Turned t d { d with locks := (d.locks.request c.request).2 } where
  owns _ _ howns := LockTable.owns_request hl howns
  calls _ _ := rfl
  cursors := CursorsKept.refl d
  pool := .refl d.pool

end Turned

end Database

/-- The call may ask for its lock. -/
structure Call.Poised (c : Call) (woken : List LockRequest) (d : Database) : Prop where
  sound : LockTable.Sound (c.request :: woken) d.locks
  rooted : d.pool.Rooted
  apt : c.Apt d

/-- The call has been granted its lock. -/
structure Call.Admitted (c : Call) (woken : List LockRequest) (d : Database) : Prop where
  sound : LockTable.Sound woken d.locks
  awake : ∀ r ∈ woken ++ d.locks.sleepers, r.txn ≠ c.txn
  rooted : d.pool.Rooted
  apt : c.Apt d
  owns : c.mode = .exclusive → d.owns c.page c.txn

/-- How the turn of a transaction comes out. -/
structure TurnsTo (t : TxnId) (woken : List LockRequest) (d : Database) (o : Option Outcome)
    (d' : Database) : Prop where
  turned : d.Turned t d'
  sound : LockTable.Sound woken d'.locks
  asleep : o = none → ∃ c, d'.locks.sleepers = d.locks.sleepers ++ [c.request] ∧ c.txn = t ∧
    d'.calls.get? t = some c ∧ c.Apt d'
  ended : o ≠ none → d'.locks.sleepers = d.locks.sleepers

variable {woken : List LockRequest} {o : Option Outcome} {outcome : Outcome} {next : Call}

namespace Call

/-- A call is as apt as it was if none of its locks were lost. -/
theorem Apt.congr (h : c.Apt d) (hpool : d'.pool = d.pool) (hcursors : d'.cursors = d.cursors)
    (howns : ∀ id, d.owns id c.txn → d'.owns id c.txn) : c.Apt d' := by
  refine h.mono (fun f hf => ⟨hpool ▸ hf.safe, ?_⟩) fun id cursor hget htxn => ⟨cursor, ?_, htxn⟩
  · rw [hpool]
    exact howns _ hf.owned
  · rw [hcursors]
    exact hget

theorem Poised.admitted {locks : LockTable} (hc : c.Poised woken d)
    (hrequest : d.locks.request c.request = (.granted, locks)) :
    c.Admitted woken { d with locks } ∧ d.Turned c.txn { d with locks } ∧
      locks.sleepers = d.locks.sleepers := by
  have hasked := Turned.of_request (t := c.txn) hc.sound
  have hsound := hc.sound.request
  rw [hrequest] at hasked hsound
  rcases LockTable.request_cases hc.sound.acyclic c.request with
    ⟨g, hgrant, hgranted⟩ | ⟨-, -, hrefused⟩ | ⟨-, -, hsleeps⟩
  · obtain ⟨-, rfl⟩ := Prod.mk.inj (hrequest.symm.trans hgranted)
    exact ⟨⟨hsound, hc.sound.txn_ne, hc.rooted, hc.apt.congr rfl rfl fun id => hasked.owns id c.txn,
      (granted_holds hgrant).2⟩, hasked, rfl⟩
  · cases hrequest.symm.trans hrefused
  · cases hrequest.symm.trans hsleeps

theorem Admitted.goesOn (hc : c.Admitted woken d) (hwithin : ActedFor c.txn d d')
    (hnext : (Progress.wants next).Apt c.txn d') : next.Poised woken d' := by
  obtain ⟨htxn, hapt⟩ := hnext next rfl
  refine ⟨?_, hwithin.rooted hc.rooted, hapt⟩
  rw [hwithin.locks]
  exact hc.sound.awake fun r hr heq => hc.awake r hr (heq.trans htxn)

end Call

namespace TurnsTo

theorem after (h : d.Turned t d') (hsleepers : d'.locks.sleepers = d.locks.sleepers)
    (h' : TurnsTo t woken d' o d'') : TurnsTo t woken d o d'' where
  turned := h.trans h'.turned
  sound := h'.sound
  asleep hnone := by
    rw [← hsleepers]
    exact h'.asleep hnone
  ended hsome := (h'.ended hsome).trans hsleepers

/-- A turn that ends without another lock request. -/
theorem of_within (hl : LockTable.Sound woken d.locks) (h : ActedFor t d d') :
    TurnsTo t woken d (some outcome) d' where
  turned := .of_within h
  sound := by rwa [h.locks]
  asleep hnone := by cases hnone
  ended _ := by rw [h.locks]

theorem fail (hl : LockTable.Sound woken d.locks) (c : Call) (e : Error) :
    TurnsTo c.txn woken d (some (.ok (d.fail c e).1)) (d.fail c e).2 := by
  have hletGo : ActedFor c.txn d (d.letGo (.operation c.txn)) := .holders d _
  rw [Database.fail]
  split
  case h_1 cursor harvest _ =>
    have hclose : ActedFor c.txn (d.letGo (.operation c.txn))
        ((d.letGo (.operation c.txn)).updateCursor cursor Cursor.close) :=
      .updateCursor _ cursor fun _ => ⟨rfl, rfl⟩
    exact .of_within hl (hletGo.trans hclose)
  case h_2 => exact .of_within hl hletGo

/-- A turn may be cut off before it begins if nobody's edges are left. -/
theorem runBounded (n : Nat) (hc : c.Poised woken d)
    (hn : 0 < n ∨ LockTable.Sound woken d.locks) :
    TurnsTo c.txn woken d (runBounded n c d).1 (runBounded n c d).2 := by
  induction n generalizing c d with
  | zero => exact .of_within (hn.resolve_left (Nat.lt_irrefl 0)) (.holders d _)
  | succ n ih =>
    have hasked := Turned.of_request (t := c.txn) hc.sound
    have hsound := hc.sound.request
    rw [Database.runBounded]
    rcases LockTable.request_cases hc.sound.acyclic c.request with
      ⟨g, -, hrequest⟩ | ⟨-, -, hrequest⟩ | ⟨-, -, hrequest⟩
    case inr.inl =>
      rw [hrequest] at hasked hsound ⊢
      exact .after hasked rfl (.fail hsound c _)
    case inr.inr =>
      rw [hrequest] at hasked hsound ⊢
      refine ⟨⟨hasked.owns, fun u hne => ?_, hasked.cursors, .refl d.pool⟩, hsound,
        fun _ => ⟨c, rfl, rfl, SortedMap.get?_insert_self _ _ _, ?_⟩, fun hsome => absurd rfl hsome⟩
      · exact SortedMap.get?_insert_of_ne d.calls c (Ne.symm hne)
      · exact hc.apt.congr rfl rfl fun id => hasked.owns id c.txn
    case inl =>
      obtain ⟨hadmitted, hturned, hsleepers⟩ := hc.admitted hrequest
      obtain ⟨hwithin, hgood⟩ := acts_proceed hadmitted.rooted hadmitted.apt hadmitted.owns
      rw [hrequest]
      refine .after hturned hsleepers ?_
      simp only
      generalize (proceed c).on { d with locks := d.locks.grantTo c.request g } = x
        at hwithin hgood ⊢
      have hsound' : LockTable.Sound woken x.2.locks := hwithin.locks ▸ hadmitted.sound
      rcases x with ⟨fault | e | reply | next, d'⟩
      · exact .of_within hadmitted.sound (hwithin.trans (.holders d' _))
      · exact .after (.of_within hwithin) (by rw [hwithin.locks]) (.fail hsound' c e)
      · exact .of_within hadmitted.sound hwithin
      · have hnext := hadmitted.goesOn hwithin (hgood _ rfl)
        obtain ⟨htxn, -⟩ := hgood _ rfl next rfl
        exact .after (.of_within hwithin) (by rw [hwithin.locks])
          (htxn ▸ ih hnext (Or.inr hsound'))

theorem run (hc : c.Poised woken d) : TurnsTo c.txn woken d (run c d).1 (run c d).2 :=
  .runBounded _ hc (Or.inl (Nat.succ_pos _))

/-- The turn of a transaction that neither sleeps nor was woken. -/
theorem start {act : Act Database Progress} (hl : LockTable.Sound woken d.locks)
    (hd : d.pool.Rooted) (hawake : ∀ r ∈ woken ++ d.locks.sleepers, r.txn ≠ t)
    (h : Acts t (Progress.Apt t) d act) :
    TurnsTo t woken d (start act d).1 (start act d).2 := by
  obtain ⟨hwithin, hgood⟩ := h
  rw [Database.start]
  generalize act.on d = x at hwithin hgood ⊢
  rcases x with ⟨fault | e | reply | c, d'⟩
  · exact .of_within hl hwithin
  · exact .of_within hl hwithin
  · exact .of_within hl hwithin
  · obtain ⟨rfl, hapt⟩ := hgood _ rfl c rfl
    have hsound : LockTable.Sound (c.request :: woken) d'.locks :=
      hwithin.locks.symm ▸ hl.awake hawake
    exact .after (.of_within hwithin) (by rw [hwithin.locks])
      (.run ⟨hsound, hwithin.rooted hd, hapt⟩)

end TurnsTo

end PagedHeap
