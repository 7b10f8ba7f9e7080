import PagedHeap.Proofs.Database.Calls
import PagedHeap.Proofs.Lock.Books
import PagedHeap.Proofs.Pool.Deeds

/-!
# What a turn does to the pool

A call asks for one lock after the other.  Once it has a lock it fetches a page and runs its
errand there, and what it does to the pool comes down to deeds, in which it uses pages in turn.  The
turn of a transaction ends with an answer or with a request that sleeps.  One parameter says whether
there may have been tampering with pages and frames.
-/

namespace PagedHeap

open Database

/-! ## The pages that calls use -/

/-- The page of a row that was inserted or deleted.  A deletion is about a given page. -/
def Reply.changed (id : PageId) : Reply → List PageId
  | .inserted rid => [rid.page]
  | .deleted => [id]
  | _ => []

/-- A page whose row was changed is used when the operation is answered. -/
def Progress.uses (id : PageId) : Progress → List PageId
  | .finished reply => reply.changed id
  | .wants _ => []

namespace Call

/-- The page that the call is about, whichever it asks for. -/
def subject (c : Call) (d : Database) : PageId :=
  match c.errand with
  | .detour frame _ _ => (d.pool.page frame).id
  | _ => c.page

/-- What a call uses once it is granted its lock: the page that it asked for, if it can be fetched,
and then the page whose row it has changed. -/
def uses (c : Call) (d : Database) : List PageId :=
  match (Pool.fetch c.page).on d.pool with
  | (.ok (.ok _), _) => c.page :: usedBy (Progress.uses (c.subject d)) ((proceed c).on d).1
  | _ => []

/-- The handle that the fetched page is kept under. -/
def keeps? (c : Call) : Option HandleId :=
  match c.errand with
  | .fetch keep => keep
  | _ => none

/-- The frame that a row operation has in hand while its store has business of its own. -/
def inHand? (c : Call) : Option FrameId :=
  match c.errand with
  | .detour frame _ _ => some frame
  | _ => none

end Call

namespace Database

/-- What a call uses from one lock request to the next, until it ends or falls asleep. -/
def usesBounded : Nat → Call → Database → List PageId
  | 0, _, _ => []
  | bound + 1, c, d =>
    match d.locks.request c.request with
    | (.granted, locks) =>
      match (proceed c).on { d with locks } with
      | (.ok (.ok (.wants next)), d') => c.uses { d with locks } ++ usesBounded bound next d'
      | _ => c.uses { d with locks }
    | _ => []

def usesOfRun (c : Call) (d : Database) : List PageId :=
  usesBounded (d.patience c) c d

def usesOfStart (act : Act Database Progress) (d : Database) : List PageId :=
  match act.on d with
  | (.ok (.ok (.wants c)), d) => usesOfRun c d
  | _ => []

/-- Whose call the command makes, and how it begins. -/
def begun? (d : Database) : Command → Option (TxnId × Act Database Progress)
  | .fetch t page mode keep => some (t, return .wants ⟨t, page, mode, .fetch keep⟩)
  | .insert t table row route => some (t, beginInsert t table row route)
  | .delete t table rid route => some (t, beginDelete t table rid route)
  | .next id => (d.cursors.get? id).map fun cursor => (cursor.txn, scanFrom id cursor .next)
  | .rest id => (d.cursors.get? id).map fun cursor => (cursor.txn, scanFrom id cursor (.rest []))
  | _ => none

def usesOfCommand (d : Database) (c : Command) : List PageId :=
  match d.begun? c with
  | some (_, act) => usesOfStart act d
  | none => []

/-- The frame that the row operation of a transaction refers to. -/
def inHand? (d : Database) (t : TxnId) : Option FrameId :=
  d.pool.buffer.holders.get? (.operation t)

end Database

/-- The pages that a step uses, in the order of their uses. -/
def Moment.uses (m : Moment) : Occurrence → List PageId
  | .command c _ => if m.isBusy c then [] else m.db.usesOfCommand c
  | .resumed t _ =>
    match m.db.calls.get? t with
    | some c => usesOfRun c { m.db with calls := m.db.calls.erase t }
    | none => []

theorem Moment.uses_resumed {m : Moment} {t : TxnId} {c : Call} (outcome : Option Outcome)
    (hget : m.db.calls.get? t = some c) :
    m.uses (.resumed t outcome) = usesOfRun c { m.db with calls := m.db.calls.erase t } := by
  rw [Moment.uses, hget]

theorem Moment.uses_resumed_none {m : Moment} {t : TxnId} (outcome : Option Outcome)
    (hget : m.db.calls.get? t = none) : m.uses (.resumed t outcome) = [] := by
  rw [Moment.uses, hget]

/-! ## Acts -/

/-- Only in a tampered run a changed page waits for its store, and then its frame is there. -/
def Call.Fits (wild : Prop) (c : Call) (b : Buffer) : Prop :=
  ∀ f rest reply, c.errand = .detour f rest reply →
    wild ∧ f.number < b.frames.size ∧ reply.changed (b.page f).id = [(b.page f).id]

/-- A call that goes on in the turn of the transaction.  What the transaction has in hand is told
only if it was known before. -/
structure Call.GoesOn (wild known : Prop) (t : TxnId) (keep : Option HandleId) (c : Call)
    (d : Database) : Prop where
  txn : c.txn = t
  fits : c.Fits wild d.pool.buffer
  keeps : ∀ h, c.keeps? = some h → keep = some h
  scans : ∀ id harvest, c.errand = .scan id harvest →
    ∃ cursor, d.cursors.get? id = some cursor ∧ cursor.txn = t
  inHand : known → d.inHand? t = c.inHand?

/-- What is done between two lock requests, in which pages are used. -/
structure Worked (wild : Prop) (may : Deed → Prop) (used : List PageId) (d d' : Database) :
    Prop where
  locks : d'.locks = d.locks
  calls : d'.calls = d.calls
  cursors : CursorsKept d d'
  pool : Pool.LeadsTo wild may used d.pool d'.pool

/-- The action does to the pool what it may do, uses pages, and what it answers is good. -/
def Works {α : Type} (wild : Prop) (may : Deed → Prop) (uses : α → List PageId)
    (good : α → Database → Prop) (d : Database) (act : Act Database α) : Prop :=
  Worked wild may (usedBy uses (act.on d).1) d (act.on d).2 ∧
    ∀ a, (act.on d).1 = .ok (.ok a) → good a (act.on d).2

/-- The call ends with nothing in hand, or goes on. -/
def Progress.Fits (wild known : Prop) (t : TxnId) (keep : Option HandleId) (progress : Progress)
    (d : Database) : Prop :=
  match progress with
  | .finished _ => known → d.inHand? t = none
  | .wants c => c.GoesOn wild known t keep d

/-- So it does, and no row has been changed. -/
def Progress.FitsIdly (wild known : Prop) (t : TxnId) (keep : Option HandleId) (progress : Progress)
    (d : Database) : Prop :=
  progress.Fits wild known t keep d ∧ ∀ id, progress.uses id = []

variable {α β : Type} {wild known : Prop} {may may' : Deed → Prop} {keep : Option HandleId}
  {used used' : List PageId} {uses : α → List PageId}
  {uses' : β → List PageId} {d d' d'' : Database} {c : Call} {t u : TxnId} {id : PageId}
  {f : FrameId} {good : α → Database → Prop} {good' : β → Database → Prop}

theorem Call.Fits.mono {b b' : Buffer} (h : c.Fits wild b) (hle : b.frames.size ≤ b'.frames.size)
    (hid : ∀ f : FrameId, f.number < b.frames.size → (b'.page f).id = (b.page f).id) :
    c.Fits wild b' := by
  intro f rest reply herrand
  obtain ⟨hwild, hlt, htells⟩ := h f rest reply herrand
  exact ⟨hwild, Nat.lt_of_lt_of_le hlt hle, by rwa [hid f hlt]⟩

namespace Worked

theorem refl (d : Database) : Worked wild may [] d d :=
  ⟨rfl, rfl, CursorsKept.refl d, .refl _⟩

theorem trans (h : Worked wild may used d d') (h' : Worked wild may used' d' d'') :
    Worked wild may (used ++ used') d d'' :=
  ⟨h'.locks.trans h.locks, h'.calls.trans h.calls, h.cursors.trans h'.cursors, h.pool.trans h'.pool⟩

theorem trans_idle (h : Worked wild may used d d') (h' : Worked wild may [] d' d'') :
    Worked wild may used d d'' := by
  have hboth := h.trans h'
  rwa [List.append_nil] at hboth

theorem mono (h : Worked wild may used d d') (hle : ∀ d, may d → may' d) :
    Worked wild may' used d d' :=
  ⟨h.locks, h.calls, h.cursors, h.pool.mono hle⟩

theorem onPool {p : Pool} (h : Pool.LeadsTo wild may used d.pool p) :
    Worked wild may used d (d.withPool p) :=
  ⟨rfl, rfl, CursorsKept.refl d, h⟩

theorem does {deed : Deed} {p : Pool}
    (h : Pool.Does wild (fun id why => may (.lost id why)) d.pool deed p) (hmay : may deed) :
    Worked wild may (usesOf [deed]) d (d.withPool p) :=
  .onPool (h.leadsTo hmay)

theorem hold (d : Database) (who : Holder) (f : FrameId) (hmay : may (.pinned who)) :
    Worked wild may [] d (d.hold who f) :=
  .does (.pin who fun _ hne => SortedMap.get?_insert_of_ne _ _ (Ne.symm hne)) hmay

theorem letGo (d : Database) (who : Holder) (hmay : may (.pinned who)) :
    Worked wild may [] d (d.letGo who) :=
  .does (.pin who fun _ hne => SortedMap.get?_erase_of_ne _ (Ne.symm hne)) hmay

theorem setCursor {id : CursorId} {cursor cursor' : Cursor}
    (hget : d.cursors.get? id = some cursor) (halike : cursor.Alike cursor') :
    Worked wild may [] d (d.setCursor id cursor') := by
  refine ⟨rfl, rfl, fun id' old hold => ?_, .refl _⟩
  by_cases heq : id = id'
  · subst heq
    obtain rfl := Option.some.inj (hget.symm.trans hold)
    exact ⟨cursor', SortedMap.get?_insert_self d.cursors id cursor', halike⟩
  · exact ⟨old, (SortedMap.get?_insert_of_ne d.cursors cursor' heq).trans hold, .refl old⟩

theorem updateCursor (d : Database) (id : CursorId) {f : Cursor → Cursor}
    (hf : ∀ cursor : Cursor, cursor.Alike (f cursor)) :
    Worked wild may [] d (d.updateCursor id f) := by
  rw [Database.updateCursor]
  split
  case h_1 cursor hget => exact .setCursor hget (hf cursor)
  case h_2 => exact refl d

theorem inHand (h : Worked wild may used d d') (hd : d.pool.Housed wild)
    (hmay : ¬ may (.pinned (.operation u))) : d'.inHand? u = d.inHand? u :=
  h.pool.holders hd hmay

end Worked

@[simp] theorem inHand?_letGo_self (d : Database) (t : TxnId) :
    (d.letGo (.operation t)).inHand? t = none :=
  SortedMap.get?_erase_self _ _

@[simp] theorem inHand?_hold_self (d : Database) (t : TxnId) (f : FrameId) :
    (d.hold (.operation t) f).inHand? t = some f :=
  SortedMap.get?_insert_self _ _ _

/-! ## Actions step by step -/

namespace Works

theorem of_pure {a : α} (h : good a d) (huses : uses a = []) :
    Works wild may uses good d (pure a) := by
  have hused : usedBy uses ((pure a : Act Database α).on d).1 = [] := huses
  refine ⟨hused ▸ .refl d, fun a' ha => ?_⟩
  obtain rfl := Except.ok.inj (Except.ok.inj ha)
  exact h

theorem of_throw {e : Error} : Works wild may uses good d (throw e) :=
  ⟨.refl d, nofun⟩

/-- First pages are got ready, then they are used. -/
theorem bind {act : Act Database α} {k : α → Act Database β} (hd : d.pool.Housed wild)
    (h : Works wild may (fun _ => []) good d act)
    (hk : ∀ a d', d'.pool.Housed wild → good a d' → Works wild may uses' good' d' (k a)) :
    Works wild may uses' good' d (act >>= k) := by
  obtain ⟨hworked, hgood⟩ := h
  rw [Works, Act.on_bind]
  generalize act.on d = x at hworked hgood ⊢
  rcases x with ⟨fault | e | a, d'⟩
  · exact ⟨hworked, nofun⟩
  · exact ⟨hworked, nofun⟩
  · obtain ⟨hworked', hgood'⟩ := hk a d' (hworked.pool.housed hd) (hgood a rfl)
    exact ⟨hworked.trans hworked', hgood'⟩

theorem map {act : Act Database α} {g : α → β} (h : Works wild may uses good d act)
    (huses : ∀ a, uses' (g a) = uses a) (hgood : ∀ a d', good a d' → good' (g a) d') :
    Works wild may uses' good' d (act >>= fun a => pure (g a)) := by
  obtain ⟨hworked, hgood₀⟩ := h
  rw [Works, Act.on_bind]
  generalize act.on d = x at hworked hgood₀ ⊢
  rcases x with ⟨fault | e | a, d'⟩
  · exact ⟨hworked, nofun⟩
  · exact ⟨hworked, nofun⟩
  · have hused : usedBy uses' (.ok (.ok (g a))) = usedBy uses (.ok (.ok a)) := huses a
    refine ⟨hused ▸ hworked, fun b hb => ?_⟩
    obtain rfl := Except.ok.inj (Except.ok.inj hb)
    exact hgood a d' (hgood₀ a rfl)

theorem mono {act : Act Database α} (h : Works wild may uses good d act)
    (hle : ∀ d, may d → may' d) : Works wild may' uses good d act :=
  ⟨h.1.mono hle, h.2⟩

theorem of_idle {act : Act Database Progress}
    (h : Works wild Deed.OfRows (fun _ => []) (Progress.FitsIdly wild known t keep) d act)
    (id : PageId) :
    Works wild (Deed.OfCall wild t keep) (Progress.uses id) (Progress.Fits wild known t keep) d
      act := by
  obtain ⟨hworked, hgood⟩ := h
  refine ⟨Worked.mono ?_ fun _ => Deed.OfRows.ofCall, fun a ha => (hgood a ha).1⟩
  generalize act.on d = x at hworked hgood ⊢
  rcases x with ⟨fault | e | a, d'⟩
  · exact hworked
  · exact hworked
  · have hused : usedBy (Progress.uses id) (.ok (.ok a)) = [] := (hgood a rfl).2 id
    exact hused ▸ hworked

theorem after_get {k : Database → Act Database β} (h : Works wild may uses' good' d (k d)) :
    Works wild may uses' good' d (get >>= k) := by
  rw [Works, Act.on_bind, Act.on_get]
  exact h

theorem after_modify {g : Database → Database} {k : PUnit → Act Database β}
    (hg : Worked wild may [] d (g d))
    (h : Works wild may uses' good' (g d) (k ⟨⟩)) :
    Works wild may uses' good' d (modify g >>= k) := by
  rw [Works, Act.on_modify_bind]
  exact ⟨hg.trans h.1, h.2⟩

theorem after_ofResult {x : Except Error α} {k : α → Act Database β}
    (h : ∀ a, x = .ok a → Works wild may uses' good' d (k a)) :
    Works wild may uses' good' d (Act.ofResult x >>= k) := by
  rw [Works, Act.on_bind, Act.on_ofResult]
  cases x with
  | error e => exact ⟨.refl d, nofun⟩
  | ok a => exact h a rfl

theorem after_tracked {route : Route} {x : Database → Except Error α} {act : Act Database β}
    (h : Works wild may uses' good' d act) :
    Works wild may uses' good' d
      (if route = .tracked then do let _ ← Act.ofResult (x (← get)); act else act) := by
  split
  case isTrue => exact .after_get (.after_ofResult fun _ _ => h)
  case isFalse => exact h

theorem after_checked {x : Checked α} {k : α → Act Database β}
    (h : ∀ a, Works wild may uses' good' d (k a)) :
    Works wild may uses' good' d (liftM x >>= k) := by
  rw [Works, Act.on_bind, Act.on_checked]
  cases x with
  | error fault => exact ⟨.refl d, nofun⟩
  | ok a => exact h a

/-- Nobody comes to refer to another frame while rows are worked on. -/
theorem onPool (t : TxnId) {act : Act Pool α} (hd : d.pool.Housed wild)
    (h : Pool.LeadsTo wild Deed.OfRows (usedBy uses (act.on d.pool).1) d.pool (act.on d.pool).2)
    (hgood : ∀ a p, act.on d.pool = (.ok (.ok a), p) → (d.withPool p).inHand? t = d.inHand? t →
      good a (d.withPool p)) :
    Works wild Deed.OfRows uses good d (Database.onPool act) := by
  have hworked : Worked wild Deed.OfRows _ d (d.withPool _) := .onPool h
  exact ⟨hworked, fun a ha => hgood a _ (Prod.ext ha rfl) (hworked.inHand hd id)⟩

theorem onPool_idle (t : TxnId) {act : Act Pool α} (hd : d.pool.Housed wild)
    (h : Pool.LeadsTo wild Deed.OfRows [] d.pool (act.on d.pool).2)
    (hgood : ∀ a p, act.on d.pool = (.ok (.ok a), p) → (d.withPool p).inHand? t = d.inHand? t →
      good a (d.withPool p)) :
    Works wild Deed.OfRows (fun _ => []) good d (Database.onPool act) :=
  .onPool t hd ((usedBy_none (act.on d.pool).1).symm ▸ h) hgood

/-- The page of a frame is changed, and stays in it. -/
theorem onFrame (t : TxnId) {act : Act Pool α} (hd : d.pool.Housed wild)
    (h : Pool.LeadsTo wild Deed.OfRows [] d.pool (act.on d.pool).2)
    (hcached : (act.on d.pool).2.buffer.cached? id = some f) :
    Works wild Deed.OfRows (fun _ => [])
      (fun a d' => (act.on d.pool).1 = .ok (.ok a) ∧ d'.pool.buffer.cached? id = some f ∧
        d'.inHand? t = d.inHand? t) d
      (Database.onPool act) :=
  .onPool_idle t hd h fun _ _ hon hhand =>
    ⟨congrArg Prod.fst hon, by rwa [hon] at hcached, hhand⟩

end Works

/-! ## Row operations -/

theorem Progress.fitsIdly_finished {reply : Reply} (hreply : ∀ id, reply.changed id = [])
    (hhand : known → d.inHand? t = none) : (Progress.finished reply).FitsIdly wild known t keep d :=
  ⟨hhand, hreply⟩

/-- A call that does not wait for a store has nothing in hand. -/
theorem Call.goesOn (hc : ∀ f rest reply, c.errand ≠ .detour f rest reply) (htxn : c.txn = t)
    (hkeep : ∀ h, c.keeps? = some h → keep = some h)
    (hscan : ∀ id harvest, c.errand = .scan id harvest →
      ∃ cursor, d.cursors.get? id = some cursor ∧ cursor.txn = t)
    (hhand : known → d.inHand? t = none) : c.GoesOn wild known t keep d := by
  refine ⟨htxn, fun f rest reply herrand => absurd herrand (hc f rest reply), hkeep, hscan,
    fun hknown => ?_⟩
  rw [hhand hknown, Call.inHand?]
  split
  case h_1 f rest reply herrand => exact absurd herrand (hc f rest reply)
  case h_2 => rfl

theorem Progress.fitsIdly_insert (page : PageId) (row : Row) (ahead : Nat) (route : Route)
    (hhand : known → d.inHand? t = none) :
    (Progress.wants ⟨t, page, .exclusive, .insert row ahead route⟩).FitsIdly wild known t keep d :=
  ⟨Call.goesOn (fun _ _ _ h => by cases h) rfl (fun _ h => by cases h)
    (fun _ _ h => by cases h) hhand, fun _ => rfl⟩

theorem Progress.fitsIdly_delete (page : PageId) (slot : SlotId) (route : Route)
    (hhand : known → d.inHand? t = none) :
    (Progress.wants ⟨t, page, .exclusive, .delete slot route⟩).FitsIdly wild known t keep d :=
  ⟨Call.goesOn (fun _ _ _ h => by cases h) rfl (fun _ h => by cases h)
    (fun _ _ h => by cases h) hhand, fun _ => rfl⟩

/-- The stores of an untampered run let a changed page be tracked at once. -/
theorem works_handBack (hd : d.pool.Housed wild) (rest : List Detour)
    (hf : wild ∧ f.number < d.pool.buffer.frames.size ∨
      rest = [] ∧ ∃ id, d.pool.buffer.cached? id = some f) (hid : (d.pool.page f).id = id)
    (hhand : known → d.inHand? t = some f) {reply : Reply} (htells : reply.changed id = [id]) :
    Works wild (Deed.OfCall wild t keep) (Progress.uses id) (Progress.Fits wild known t keep) d
      (handBack t f reply rest) := by
  -- Each detour leaves the frame, the page that it is for, and the hand of the transaction alone.
  induction rest generalizing d with
  | nil =>
    have hletGo : Worked wild (Deed.OfCall wild t keep) [] d (d.letGo (.operation t)) :=
      .letGo d _ rfl
    have hd' := hletGo.pool.housed hd
    have htrack : Works wild Deed.OfRows (fun _ => [id]) (fun _ d' => d'.inHand? t = none)
        (d.letGo (.operation t)) (Database.onPool (Pool.track f t)) := by
      subst hid
      have htracked := Pool.track_leadsTo hd'.framed t (hf.imp_right And.right)
      refine .onPool t hd' htracked fun _ _ _ hsame => ?_
      exact hsame.trans (inHand?_letGo_self d t)
    exact .after_modify hletGo ((htrack.mono fun _ => Deed.OfRows.ofCall).map
      (fun _ => htells) fun _ _ hnone _ => hnone)
  | cons detour rest ih =>
    obtain ⟨hwild, hlt⟩ := hf.resolve_right fun h => nomatch h.1
    cases detour with
    | letGo =>
      have hlost : Worked wild (Deed.OfCall wild t keep) [] d
          (d.withPool (d.pool.discard (d.pool.page f).id)) :=
        .does (.lose _ .dismissed ⟨hwild, rfl⟩) ⟨hwild, rfl⟩
      refine .after_modify hlost (ih (hlost.pool.housed hd) (Or.inl ⟨hwild, ?_⟩) ?_ ?_)
      · exact Nat.lt_of_lt_of_le hlt (hlost.pool.frames_le hd)
      · exact (hlost.pool.id_page hd hlt).trans hid
      · intro hknown
        have hholders := Buffer.holders_discard d.pool.buffer (d.pool.page f).id
        exact (congrArg (fun holders => holders.get? (.operation t)) hholders).trans
          (hhand hknown)
    | visit page mode =>
      refine .of_pure ⟨rfl, fun f' rest' reply' herrand => ?_, fun _ h => (by cases h),
        fun _ _ h => (by cases h), hhand⟩ rfl
      obtain ⟨rfl, -, rfl⟩ := Errand.detour.inj herrand
      exact ⟨hwild, hlt, hid ▸ htells⟩

theorem works_afterChange (hd : d.pool.Housed wild) (hf : d.pool.buffer.cached? id = some f)
    (t : TxnId) (table : TableId) {reply : Reply} (htells : reply.changed id = [id]) :
    Works wild (Deed.OfCall wild t keep) (Progress.uses id) (Progress.Fits wild known t keep) d
      (afterChange t table f reply) := by
  have hhold : Worked wild (Deed.OfCall wild t keep) [] d (d.hold (.operation t) f) :=
    .hold d _ f rfl
  have hd' := hhold.pool.housed hd
  have hcached : ∃ id, (d.hold (.operation t) f).pool.buffer.cached? id = some f := ⟨id, hf⟩
  have hid : ((d.hold (.operation t) f).pool.page f).id = id := (hd.framed id f hf).2
  have hhand : known → _ := fun _ => inHand?_hold_self d t f
  refine .after_modify hhold (.after_get ?_)
  split
  case h_1 => exact works_handBack hd' [] (Or.inr ⟨rfl, hcached⟩) hid hhand htells
  case h_2 store hs =>
    refine works_handBack hd' store.detours (hd.mounted.imp (fun hwild => ?_) fun hm => ?_) hid
      hhand htells
    · exact ⟨hwild, (hd.framed id f hf).1⟩
    · exact ⟨(hm table store hs).2, hcached⟩

theorem works_insertFrom (hd : d.pool.Housed wild) (hhand : known → d.inHand? t = none)
    (table : TableId) (pageNo : UInt32) (row : Row) (ahead : Nat) (route : Route) :
    Works wild Deed.OfRows (fun _ => []) (Progress.FitsIdly wild known t keep) d
      (insertFrom t table pageNo row ahead route) := by
  cases ahead with
  | zero =>
    have happend : Works wild Deed.OfRows (fun _ => []) (fun _ d' => d'.inHand? t = d.inHand? t) d
        (Database.onPool (Pool.appendPage table)) :=
      .onPool_idle t hd (Pool.appendPage_leadsTo table d.pool) fun _ _ _ hsame => hsame
    refine .bind hd happend fun page d' _ hsame => .of_pure ?_ rfl
    exact Progress.fitsIdly_insert page row 0 route fun hknown => hsame.trans (hhand hknown)
  | succ ahead => exact .of_pure (Progress.fitsIdly_insert _ row ahead route hhand) rfl

theorem works_beginInsert (hd : d.pool.Housed wild) (hhand : known → d.inHand? t = none)
    (table : TableId) (row : Row) (route : Route) :
    Works wild Deed.OfRows (fun _ => []) (Progress.FitsIdly wild known t keep) d
      (beginInsert t table row route) := by
  rw [beginInsert]
  refine .after_tracked ?_
  split
  case isTrue => exact .of_throw
  case isFalse =>
    exact .after_get (.after_ofResult fun count _ =>
      works_insertFrom hd hhand table 0 row count.toNat route)

theorem works_beginDelete (hhand : known → d.inHand? t = none) (table : TableId) (rid : RecordId)
    (route : Route) :
    Works wild Deed.OfRows (fun _ => []) (Progress.FitsIdly wild known t keep) d
      (beginDelete t table rid route) := by
  rw [beginDelete]
  refine .after_tracked (.after_get ?_)
  cases d.pool.disk.store? table with
  | none => exact .of_throw
  | some store =>
    exact .after_ofResult fun _ _ =>
      .of_pure (Progress.fitsIdly_delete rid.page rid.slot route hhand) rfl

/-! ## Scanning -/

theorem changed_harvested {harvest : Harvest} {failure : Option Error} {reply : Reply}
    (h : harvested harvest failure = .ok reply) (id : PageId) : reply.changed id = [] := by
  cases harvest with
  | next =>
    cases failure with
    | none => exact Except.ok.inj h ▸ rfl
    | some e => cases h
  | rest rows => exact Except.ok.inj h ▸ rfl

theorem works_harvested (harvest : Harvest) (failure : Option Error)
    (hhand : known → d.inHand? t = none) :
    Works wild Deed.OfRows (fun _ => []) (Progress.FitsIdly wild known t keep) d
      (do return .finished (← Act.ofResult (harvested harvest failure))) :=
  .after_ofResult fun _ hreply =>
    .of_pure (Progress.fitsIdly_finished (changed_harvested hreply) hhand) rfl

/-- The scan moves its own cursor at most, and wants a page for the transaction of that. -/
theorem works_scanFrom {id : CursorId} {cursor : Cursor} (hget : d.cursors.get? id = some cursor)
    (htxn : cursor.txn = t) (hhand : known → d.inHand? t = none) {cursor' : Cursor}
    (halike : cursor.Alike cursor') (harvest : Harvest) :
    Works wild Deed.OfRows (fun _ => []) (Progress.FitsIdly wild known t keep) d
      (scanFrom id cursor' harvest) := by
  have hend : ∀ (cursor' : Cursor) (harvest : Harvest) (failure : Option Error),
      cursor.Alike cursor' →
      Works wild Deed.OfRows (fun _ => []) (Progress.FitsIdly wild known t keep) d
        (endScan id cursor' harvest failure) := fun cursor' harvest failure halike =>
    .after_modify (.setCursor hget ⟨halike.txn, halike.table⟩)
      (works_harvested harvest failure hhand)
  have hpage : ∀ (cursor' : Cursor) (harvest : Harvest), cursor.Alike cursor' →
      Works wild Deed.OfRows (fun _ => []) (Progress.FitsIdly wild known t keep) d
        (wantPage id cursor' harvest) := by
    intro cursor' harvest halike
    have htxn' := halike.txn.trans htxn
    refine .after_get ?_
    split
    case h_1 e _ => exact hend cursor' harvest (some e) halike
    case h_2 count _ =>
      split
      case isTrue => exact hend cursor' harvest none halike
      case isFalse =>
        refine .after_modify (.setCursor hget halike) (.of_pure ⟨Call.goesOn (fun _ _ _ h => ?_)
          htxn' (fun _ h => ?_) (fun id' harvest' h => ?_) hhand, fun _ => rfl⟩ rfl)
        · cases h
        · cases h
        · obtain ⟨rfl, -⟩ := Errand.scan.inj h
          exact ⟨cursor', SortedMap.get?_insert_self d.cursors id cursor', htxn'⟩
  simp only [scanFrom]
  split
  case isFalse => exact works_harvested harvest none hhand
  case isTrue =>
    split
    case h_1 =>
      exact .after_modify (.setCursor hget ⟨halike.txn, halike.table⟩)
        (.of_pure (Progress.fitsIdly_finished (fun _ => rfl) hhand) rfl)
    case h_2 => exact hpage cursor' .next halike
    case h_3 rows =>
      exact hpage { cursor' with pending := [] } (.rest (rows ++ cursor'.pending))
        ⟨halike.txn, halike.table⟩

/-! ## Errands -/

/-- The errand of the call uses what the call uses. -/
def Call.Works (wild known : Prop) (keep : Option HandleId) (c : Call) (d : Database) : Prop :=
  Worked wild (Deed.OfCall wild c.txn keep) (c.uses d) d ((proceed c).on d).2 ∧
    ∀ progress, ((proceed c).on d).1 = .ok (.ok progress) →
      progress.Fits wild known c.txn keep ((proceed c).on d).2

/-- Every errand begins with a fetch, and breaks off if that fails. -/
theorem works_of_rest {rest : FrameId → Act Database Progress} (hd : d.pool.Housed wild)
    (hproceed : proceed c = onPool (Pool.fetch c.page) >>= rest)
    (hrest : ∀ f d', d'.pool.Housed wild → Worked wild Deed.OfRows [c.page] d d' →
      d'.pool.buffer.cached? c.page = some f → d'.inHand? c.txn = d.inHand? c.txn →
      Works wild (Deed.OfCall wild c.txn keep) (Progress.uses (c.subject d))
        (Progress.Fits wild known c.txn keep) d' (rest f)) :
    c.Works wild known keep d := by
  have hfetch : Pool.LeadsTo wild Deed.OfRows _ d.pool _ := Pool.fetch_leadsTo c.page d.pool
  have hfetched := Pool.fetched c.page d.pool
  have hframe := fun f p (hon : (Pool.fetch c.page).on d.pool = (.ok (.ok f), p)) =>
    Pool.cached?_of_fetch hd.framed hon
  rw [Call.Works, Call.uses, hproceed, Act.on_bind, on_onPool]
  generalize (Pool.fetch c.page).on d.pool = x at hfetch hfetched hframe ⊢
  rcases x with ⟨fault | e | f, p⟩
  · cases hfetched
  · have hworked : Worked wild Deed.OfRows [] d (d.withPool p) := .onPool hfetch
    exact ⟨hworked.mono fun _ => Deed.OfRows.ofCall, nofun⟩
  · have hworked : Worked wild Deed.OfRows [c.page] d (d.withPool p) := .onPool hfetch
    obtain ⟨hworked', hfits⟩ := hrest f (d.withPool p) (hfetch.housed hd) hworked (hframe f p rfl)
      (hworked.inHand hd id)
    exact ⟨(hworked.mono fun _ => Deed.OfRows.ofCall).trans hworked', hfits⟩

theorem works_insertHere (hd : d.pool.Housed wild) (hhand : known → d.inHand? c.txn = c.inHand?)
    {row : Row} {ahead : Nat} {route : Route} (herrand : c.errand = .insert row ahead route) :
    c.Works wild known keep d := by
  have hsubject : c.subject d = c.page := by rw [Call.subject, herrand]
  have hnone : known → d.inHand? c.txn = none := fun hknown => by
    rw [hhand hknown, Call.inHand?, herrand]
  refine works_of_rest hd (by rw [proceed, herrand]; rfl) fun f d₁ hd₁ _ hf hsame => ?_
  have hplaced : Pool.LeadsTo wild Deed.OfRows [] d₁.pool _ :=
    Pool.placeRow_leadsTo f c.txn row (Or.inr ⟨_, hf⟩)
  refine .bind hd₁ (Works.mono (.onFrame c.txn hd₁ hplaced hf) fun _ => Deed.OfRows.ofCall)
    fun placed d₂ hd₂ hgood => ?_
  obtain ⟨hon, hf₂, hsame₂⟩ := hgood
  replace hnone := fun hknown => (hsame₂.trans hsame).trans (hnone hknown)
  rw [hsubject]
  cases placed with
  | none => exact .of_idle (works_insertFrom hd₂ hnone c.page.table _ row ahead route) _
  | some rid =>
    have hpage : rid.page = c.page := (Pool.page_of_placeRow hon).trans (hd₁.framed c.page f hf).2
    cases route with
    | tracked => exact works_afterChange hd₂ hf₂ c.txn c.page.table (congrArg ([·]) hpage)
    | direct => exact .of_idle (.of_pure (Progress.fitsIdly_finished (fun _ => rfl) hnone) rfl) _

theorem works_deleteHere (hd : d.pool.Housed wild) (hhand : known → d.inHand? c.txn = c.inHand?)
    {slot : SlotId} {route : Route} (herrand : c.errand = .delete slot route) :
    c.Works wild known keep d := by
  have hsubject : c.subject d = c.page := by rw [Call.subject, herrand]
  have hnone : known → d.inHand? c.txn = none := fun hknown => by
    rw [hhand hknown, Call.inHand?, herrand]
  refine works_of_rest hd (by rw [proceed, herrand]; rfl) fun f d₁ hd₁ _ hf hsame => ?_
  have hremoved : Pool.LeadsTo wild Deed.OfRows [] d₁.pool _ :=
    Pool.removeRow_leadsTo f c.txn slot (Or.inr ⟨_, hf⟩)
  refine .bind hd₁ (Works.mono (.onFrame c.txn hd₁ hremoved hf) fun _ => Deed.OfRows.ofCall)
    fun _ d₂ hd₂ hgood => ?_
  obtain ⟨-, hf₂, hsame₂⟩ := hgood
  replace hnone := fun hknown => (hsame₂.trans hsame).trans (hnone hknown)
  rw [hsubject]
  cases route with
  | tracked => exact works_afterChange hd₂ hf₂ c.txn c.page.table rfl
  | direct => exact .of_idle (.of_pure (Progress.fitsIdly_finished (fun _ => rfl) hnone) rfl) _

theorem works_fetchHere (hd : d.pool.Housed wild) (hhand : known → d.inHand? c.txn = c.inHand?)
    {keep' : Option HandleId} (herrand : c.errand = .fetch keep')
    (hkeep : ∀ h, c.keeps? = some h → keep = some h) : c.Works wild known keep d := by
  have hnone : known → d.inHand? c.txn = none := fun hknown => by
    rw [hhand hknown, Call.inHand?, herrand]
  refine works_of_rest hd (by rw [proceed, herrand]; rfl) fun f d₁ hd₁ _ _ hsame => ?_
  replace hnone := fun hknown => hsame.trans (hnone hknown)
  cases keep' with
  | none =>
    exact .of_idle (.after_get (.of_pure (Progress.fitsIdly_finished (fun _ => rfl) hnone) rfl)) _
  | some handle =>
    have hheld : known → (d₁.hold (.handle handle) f).inHand? c.txn = none := fun hknown =>
      (SortedMap.get?_insert_of_ne _ f fun heq => by cases heq).trans (hnone hknown)
    exact .after_modify (.hold d₁ _ f (hkeep handle (by rw [Call.keeps?, herrand])))
      (.after_get (.of_idle (.of_pure (Progress.fitsIdly_finished (fun _ => rfl) hheld) rfl) _))

theorem works_scanHere (hd : d.pool.Housed wild) (hc : c.GoesOn wild known c.txn keep d)
    {id : CursorId} {harvest : Harvest} (herrand : c.errand = .scan id harvest) :
    c.Works wild known keep d := by
  have hnone : known → d.inHand? c.txn = none := fun hknown => by
    rw [hc.inHand hknown, Call.inHand?, herrand]
  obtain ⟨cursor, hget, htxn⟩ := hc.scans id harvest herrand
  refine works_of_rest hd (by rw [proceed, herrand]; rfl) fun f d₁ hd₁ hworked _ hsame => ?_
  obtain ⟨cursor', hget', halike⟩ := hworked.cursors id cursor hget
  refine .of_idle (.after_get (.after_checked fun rows => .after_get ?_)) _
  simp only [hget']
  have haccepted : cursor'.Alike (cursor'.accept rows) := ⟨rfl, rfl⟩
  exact works_scanFrom hget' (halike.txn.trans htxn) (fun hknown => hsame.trans (hnone hknown))
    haccepted harvest

theorem works_proceed (hd : d.pool.Housed wild) (hc : c.GoesOn wild known c.txn keep d) :
    c.Works wild known keep d := by
  cases herrand : c.errand with
  | fetch keep' => exact works_fetchHere hd hc.inHand herrand hc.keeps
  | insert row ahead route => exact works_insertHere hd hc.inHand herrand
  | delete slot route => exact works_deleteHere hd hc.inHand herrand
  | scan id harvest => exact works_scanHere hd hc herrand
  | detour frame rest reply =>
    obtain ⟨hwild, hlt, htells⟩ := hc.fits frame rest reply herrand
    have hsubject : c.subject d = (d.pool.page frame).id := by rw [Call.subject, herrand]
    have hhand : known → d.inHand? c.txn = some frame := fun hknown => by
      rw [hc.inHand hknown, Call.inHand?, herrand]
    refine works_of_rest hd (by rw [proceed, herrand]) fun f d₁ hd₁ hworked _ hsame => ?_
    rw [hsubject]
    exact works_handBack hd₁ rest
      (Or.inl ⟨hwild, Nat.lt_of_lt_of_le hlt (hworked.pool.frames_le hd)⟩)
      (hworked.pool.id_page hd hlt) (fun hknown => hsame.trans (hhand hknown)) htells

/-! ## Turns -/

/-- How a call stands at the end of a turn.  Either it has ended and has nothing in hand, or it
sleeps. -/
inductive Rests (wild known : Prop) (t : TxnId) (d d' : Database) : Option Outcome → Prop
  | ended (outcome : Outcome) (hcalls : d'.calls = d.calls)
      (hsleepers : d'.locks.sleepers = d.locks.sleepers) (hhand : known → d'.inHand? t = none) :
      Rests wild known t d d' (some outcome)
  | asleep (c : Call) (hcalls : d'.calls = d.calls.insert t c)
      (hsleepers : d'.locks.sleepers = d.locks.sleepers ++ [c.request])
      (hc : c.GoesOn wild known t c.keeps? d') : Rests wild known t d d' none

/-- What the turn of a transaction does to the database. -/
structure TookTurn (wild known : Prop) (t : TxnId) (keep : Option HandleId) (used : List PageId)
    (d : Database) (x : Option Outcome × Database) : Prop where
  locks : ∃ cs, x.2.locks = d.locks.afterAll cs
  cursors : CursorsKept d x.2
  pool : Pool.LeadsTo wild (Deed.OfCall wild t keep) used d.pool x.2.pool
  rests : Rests wild known t d x.2 x.1

namespace TookTurn

variable {x : Option Outcome × Database}

theorem of_worked (h : Worked wild (Deed.OfCall wild t keep) used d d') (outcome : Outcome)
    (hhand : known → d'.inHand? t = none) : TookTurn wild known t keep used d (some outcome, d') :=
  ⟨⟨[], h.locks⟩, h.cursors, h.pool, .ended outcome h.calls (by rw [h.locks]) hhand⟩

theorem after (h : Worked wild (Deed.OfCall wild t keep) used d d')
    (h' : TookTurn wild known t keep used' d' x) :
    TookTurn wild known t keep (used ++ used') d x where
  locks := h.locks ▸ h'.locks
  cursors := h.cursors.trans h'.cursors
  pool := h.pool.trans h'.pool
  rests := by
    obtain ⟨o, d''⟩ := x
    cases h'.rests with
    | ended outcome hcalls hsleepers hhand =>
      exact .ended outcome (hcalls.trans h.calls) (hsleepers.trans (by rw [h.locks])) hhand
    | asleep c hcalls hsleepers hc =>
      exact .asleep c (hcalls.trans (by rw [h.calls])) (hsleepers.trans (by rw [h.locks])) hc

/-- A turn that goes on under other locks, while the same requests sleep. -/
theorem after_locks {locks : LockTable} (hlocks : ∃ cs, locks = d.locks.afterAll cs)
    (hsleepers : locks.sleepers = d.locks.sleepers)
    (h : TookTurn wild known t keep used { d with locks } x) :
    TookTurn wild known t keep used d x where
  locks := by
    obtain ⟨cs, hlocks⟩ := hlocks
    obtain ⟨cs', hlocks'⟩ := h.locks
    exact ⟨cs ++ cs', by rw [hlocks', hlocks, LockTable.afterAll, LockTable.afterAll,
      LockTable.afterAll, List.foldl_append]⟩
  cursors := h.cursors
  pool := h.pool
  rests := by
    obtain ⟨o, d'⟩ := x
    cases h.rests with
    | ended outcome hcalls hsame hhand =>
      exact .ended outcome hcalls (hsame.trans hsleepers) hhand
    | asleep c hcalls hsame hc =>
      exact .asleep c hcalls (hsame.trans (congrArg (· ++ [c.request]) hsleepers)) hc

end TookTurn

theorem took_fail (h : Worked wild (Deed.OfCall wild c.txn keep) used d d') (e : Error) :
    TookTurn wild known c.txn keep used d (some (.ok (d'.fail c e).1), (d'.fail c e).2) := by
  have hletGo : Worked wild (Deed.OfCall wild c.txn keep) [] d' (d'.letGo (.operation c.txn)) :=
    .letGo d' _ rfl
  have hnone : known → _ := fun _ => inHand?_letGo_self d' c.txn
  rw [Database.fail]
  split
  case h_1 cursor harvest _ =>
    have hclose : Worked wild (Deed.OfCall wild c.txn keep) [] (d'.letGo (.operation c.txn)) _ :=
      .updateCursor _ cursor (f := Cursor.close) fun _ => ⟨rfl, rfl⟩
    refine .of_worked ((h.trans_idle hletGo).trans_idle hclose) _ ?_
    rw [updateCursor]
    split
    · exact hnone
    · exact hnone
  case h_2 => exact .of_worked (h.trans_idle hletGo) _ hnone

theorem took_runBounded (n : Nat) (hd : d.pool.Housed wild) (hc : c.GoesOn wild known t keep d) :
    TookTurn wild known t keep (usesBounded n c d) d (runBounded n c d) := by
  induction n generalizing c d with
  | zero =>
    have hletGo : Worked wild (Deed.OfCall wild t keep) [] d (d.letGo (.operation t)) :=
      .letGo d _ rfl
    rw [runBounded, hc.txn]
    exact .of_worked hletGo _ fun _ => inHand?_letGo_self d t
  | succ n ih =>
    have hasked : ∃ cs, (d.locks.request c.request).2 = d.locks.afterAll cs :=
      ⟨[.acquire c.txn c.page c.mode], rfl⟩
    rw [runBounded, usesBounded]
    rcases LockTable.request_cases_any d.locks c.request with
      ⟨g, -, hrequest⟩ | ⟨-, hrequest | hrequest⟩
    case inr.inl =>
      rw [hrequest] at hasked ⊢
      have htxn := hc.txn
      subst htxn
      exact .after_locks hasked rfl (took_fail (.refl _) _)
    case inr.inr =>
      rw [hrequest] at hasked ⊢
      have htxn := hc.txn
      subst htxn
      exact ⟨hasked, CursorsKept.refl d, .refl _,
        .asleep c rfl rfl ⟨rfl, hc.fits, fun _ h => h, hc.scans, hc.inHand⟩⟩
    case inl =>
      rw [hrequest] at hasked ⊢
      refine .after_locks hasked rfl ?_
      have hgoes : c.GoesOn wild known t keep { d with locks := d.locks.grantTo c.request g } :=
        ⟨hc.txn, hc.fits, hc.keeps, hc.scans, hc.inHand⟩
      replace hd : Pool.Housed wild { d with locks := d.locks.grantTo c.request g }.pool := hd
      simp only
      generalize { d with locks := d.locks.grantTo c.request g } = d₁ at hd hgoes ⊢
      have htxn := hc.txn
      subst htxn
      obtain ⟨hworked, hfits⟩ : c.Works wild known keep d₁ := works_proceed hd hgoes
      have hd₁ := hworked.pool.housed hd
      generalize c.uses d₁ = used at hworked ⊢
      generalize (proceed c).on d₁ = x at hworked hfits hd₁ ⊢
      rcases x with ⟨fault | e | reply | next, d'⟩
      · have hletGo : Worked wild (Deed.OfCall wild c.txn keep) [] d'
            (d'.letGo (.operation c.txn)) :=
          .letGo d' _ rfl
        exact .of_worked (hworked.trans_idle hletGo) _ fun _ => inHand?_letGo_self d' c.txn
      · exact took_fail hworked e
      · exact .of_worked hworked _ (hfits _ rfl)
      · exact .after hworked (ih hd₁ (hfits _ rfl))

theorem took_start (hd : d.pool.Housed wild) (hhand : known → d.inHand? t = none)
    {act : Act Database Progress}
    (h : Works wild Deed.OfRows (fun _ => []) (Progress.FitsIdly wild known t keep) d act) :
    TookTurn wild known t keep (usesOfStart act d) d (start act d) := by
  obtain ⟨hworked, hfits⟩ := h
  rw [usedBy_none] at hworked
  have hsame : known → (act.on d).2.inHand? t = none := fun hknown =>
    (hworked.inHand hd id).trans (hhand hknown)
  replace hworked : Worked wild (Deed.OfCall wild t keep) [] d (act.on d).2 :=
    hworked.mono fun _ => Deed.OfRows.ofCall
  rw [start, usesOfStart]
  generalize act.on d = x at hworked hfits hsame ⊢
  rcases x with ⟨fault | e | reply | c, d'⟩
  · exact .of_worked hworked _ hsame
  · exact .of_worked hworked _ hsame
  · exact .of_worked hworked _ hsame
  · have hrest : TookTurn wild known t keep (usesOfRun c d') d' (run c d') :=
      took_runBounded _ (hworked.pool.housed hd) (hfits _ rfl).1
    exact .after hworked hrest

end PagedHeap
