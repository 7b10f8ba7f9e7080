import PagedHeap.Proofs.Database.Answers
import PagedHeap.Proofs.Database.Allowed
import PagedHeap.Proofs.Pool.Retiring
import PagedHeap.Proofs.Pool.WriteAhead

/-!
# A call in two databases

Two databases that differ in the caching of pages serve a call alike: they grant it the same locks,
let it fall asleep at the same page, and end it with the same answer, unless one of their caches
finds no room.
-/

namespace PagedHeap

/-! ## Answers that tell the same -/

/-- Of a fetched page the copies may differ. -/
inductive Reply.Alike : Reply → Reply → Prop
  | refl (reply : Reply) : Alike reply reply
  | fetched {a b : Page} (h : a.Alike b) : Alike (.fetched a) (.fetched b)

inductive Answer.Alike : Answer → Answer → Prop
  | refl (answer : Answer) : Alike answer answer
  | replied {reply reply' : Reply} (h : reply.Alike reply') :
      Alike (.replied (.ok reply)) (.replied (.ok reply'))

/-- The cache found no room for a page. -/
def Answer.isExhausted : Answer → Bool
  | .replied (.error (.exhausted _)) => true
  | .replied (.ok (.rest _ (some (.exhausted _)))) => true
  | _ => false

open Database

/-- Two databases that differ in the caching of pages only. -/
structure Database.Twins (d e : Database) : Prop where
  pool : d.pool.Twins e.pool
  locks : e.locks = d.locks
  cursors : e.cursors = d.cursors
  calls : e.calls = d.calls

/-- A call is served by both databases; meanwhile locks and sleeping calls stay as they are. -/
structure Serving (d₀ d e : Database) : Prop where
  twins : d.Twins e
  locks : d.locks = d₀.locks
  calls : d.calls = d₀.calls
  cursors : CursorsKept d₀ d

/-- How a call of a transaction goes on: it is finished, or wants another lock. -/
inductive Goes (t : TxnId) (P : Call → Database → Prop) :
    Progress → Progress → Database → Database → Prop
  | finished {reply reply' : Reply} {d e : Database} (h : reply.Alike reply') :
      Goes t P (.finished reply) (.finished reply') d e
  | wants {next : Call} {d e : Database} (htxn : next.txn = t)
      (hworks : ∃ cmd, next.WorksFor cmd d) (hP : P next d) :
      Goes t P (.wants next) (.wants next) d e

variable {d₀ d d' e : Database} {t : TxnId} {id : PageId} {f g : FrameId} {c next : Call}
  {cmd : Option Command} {row : Row} {n ahead : Nat} {P : Call → Database → Prop}
  {woken : List LockRequest}

theorem Database.Twins.serving (h : d.Twins e) : Serving d d e :=
  ⟨h, rfl, rfl, CursorsKept.refl d⟩

theorem Database.Twins.withPools {p q : Pool} (h : d.Twins e) (hpools : p.Twins q) :
    (d.withPool p).Twins (e.withPool q) :=
  ⟨hpools, h.locks, h.cursors, h.calls⟩

/-- A call needs as many lock requests in both databases. -/
theorem Database.Twins.within (h : d.Twins e) (hroom : d.pool.disk.Roomy) (hwithin : c.Within d n) :
    c.Within e n := by
  refine ⟨hwithin.pos, fun row ahead route herrand => ?_, fun id harvest cursor herrand hget => ?_⟩
  · rw [h.pool.content? hroom]
    exact hwithin.insert row ahead route herrand
  · rw [h.cursors] at hget
    rw [h.pool.agreeing.files.pageCount]
    exact hwithin.scan id harvest cursor herrand hget

namespace Serving

theorem withPools {p q : Pool} (h : Serving d₀ d e) (hpools : p.Twins q) :
    Serving d₀ (d.withPool p) (e.withPool q) :=
  ⟨h.twins.withPools hpools, h.locks, h.calls, h.cursors⟩

theorem onPool {α β : Type} {act : Act Pool α} {act' : Act Pool β}
    {Q : α → β → Pool → Pool → Prop} (h : Serving d₀ d e)
    (hact : Act.Paired Pool.Twins Q (act.on d.pool) (act'.on e.pool)) :
    Act.Paired (Serving d₀) (fun a b d e => Q a b d.pool e.pool) ((Database.onPool act).on d)
      ((Database.onPool act').on e) := by
  rw [on_onPool, on_onPool]
  generalize act.on d.pool = x at hact ⊢
  generalize act'.on e.pool = y at hact ⊢
  cases hact with
  | answered hstates hanswers => exact .answered (h.withPools hstates) hanswers
  | refused e hstates => exact .refused e (h.withPools hstates)
  | faulted fault hstates => exact .faulted fault (h.withPools hstates)
  | fullLeft capacity s y => exact .fullLeft capacity _ _
  | fullRight capacity x s' => exact .fullRight capacity _ _

theorem setCursor {id : CursorId} {old cursor : Cursor} (h : Serving d₀ d e)
    (hget : d.cursors.get? id = some old) (halike : old.Alike cursor) :
    Serving d₀ (d.setCursor id cursor) (e.setCursor id cursor) where
  twins := ⟨h.twins.pool, h.twins.locks,
    congrArg (fun cursors : SortedMap CursorId Cursor => cursors.insert id cursor) h.twins.cursors,
    h.twins.calls⟩
  locks := h.locks
  calls := h.calls
  cursors := h.cursors.trans (acted_setCursor (t := ⟨0⟩) hget halike).cursors

theorem fetch (h : Serving d₀ d e) (hroom : d.pool.disk.Roomy) (id : PageId) :
    Act.Paired (Serving d₀)
      (fun f g d' e' => (Pool.Showing id f g d'.pool e'.pool ∧ d.pool.Kept d'.pool) ∧
        d'.cursors = d.cursors)
      ((Database.onPool (Pool.fetch id)).on d) ((Database.onPool (Pool.fetch id)).on e) := by
  refine (h.onPool (Pool.paired_fetch h.twins.pool hroom id)).also
    (P := fun _ d' => d'.cursors = d.cursors) fun f d' hon => ?_
  rw [on_onPool] at hon
  exact congrArg (fun x => x.2.cursors) hon.symm

end Serving

/-! ## Fetching and changing rows -/

theorem paired_fetchHere (h : Serving d₀ d e) (hroom : d.pool.disk.Roomy) (c : Call)
    (keep : Option HandleId) :
    Act.Paired (Serving d₀) (Goes t P) ((fetchHere c keep).on d) ((fetchHere c keep).on e) := by
  rw [fetchHere]
  refine (h.fetch hroom c.page).bind (fun _ _ h => h) fun f g d e h hfetched => ?_
  cases keep with
  | none => exact .answered h (.finished (.fetched hfetched.1.1.alike))
  | some handle =>
    simp only [Act.on_modify_bind]
    have hheld := hfetched.1.1.withBuffers (d.pool.buffer.hold (.handle handle) f)
      (e.pool.buffer.hold (.handle handle) g) rfl rfl rfl rfl
    exact .answered (h.withPools hheld.twins) (.finished (.fetched hheld.alike))

theorem paired_afterChange (h : Serving d₀ d e) (hshowing : Pool.Showing id f g d.pool e.pool)
    (t u : TxnId) (table : TableId) (reply : Reply) :
    Act.Paired (Serving d₀) (Goes u P) ((afterChange t table f reply).on d)
      ((afterChange t table g reply).on e) := by
  rw [on_afterChange hshowing.twins.first.coherent.mounted,
    on_afterChange hshowing.twins.second.coherent.mounted]
  simp only [handBack, Act.on_modify_bind]
  have hheld := hshowing.withBuffers
    ((d.pool.buffer.hold (.operation t) f).letGo (.operation t))
    ((e.pool.buffer.hold (.operation t) g).letGo (.operation t)) rfl rfl rfl rfl
  refine ((h.withPools hheld.twins).onPool
    ((Pool.agree_track hheld t).paired fun _ _ h => h)).bind (fun _ _ h => h) fun _ _ d e h _ => ?_
  exact .answered h (.finished (.refl reply))

theorem paired_deleteHere (h : Serving d₀ d e) (hroom : d.pool.disk.Roomy) (c : Call)
    (slot : SlotId) :
    Act.Paired (Serving d₀) (Goes t P) ((deleteHere c slot .tracked).on d)
      ((deleteHere c slot .tracked).on e) := by
  rw [deleteHere]
  refine (h.fetch hroom c.page).bind (fun _ _ h => h) fun f g d e h hfetched => ?_
  have hagree := Pool.agree_removeRow hfetched.1.1 c.txn slot
  refine (h.onPool (hagree.paired fun _ _ h => h.twins)).bind (fun _ _ h => h)
    fun _ _ d e h hremoved => ?_
  exact paired_afterChange h hremoved.2 c.txn t c.page.table .deleted

/-! ## Inserting -/

theorem paired_insertFrom (h : Serving d₀ d e) (t : TxnId) (table : TableId) (pageNo : UInt32)
    (hshort : row.length ≤ maxRowSize) (ahead : Nat)
    (hP : ∀ next d', (insertFrom t table pageNo row ahead .tracked).on d =
      (.ok (.ok (.wants next)), d') → P next d') :
    Act.Paired (Serving d₀) (Goes t P) ((insertFrom t table pageNo row ahead .tracked).on d)
      ((insertFrom t table pageNo row ahead .tracked).on e) := by
  have hworks : ∀ (d : Database) (page : PageId) (ahead : Nat),
      ∃ cmd, (⟨t, page, .exclusive, .insert row ahead .tracked⟩ : Call).WorksFor cmd d :=
    fun d page ahead =>
      ⟨some (.insert t table row .tracked), .of_insert rfl rfl hshort fun _ => rfl⟩
  cases ahead with
  | succ ahead => exact .answered h (.wants rfl (hworks d _ _) (hP _ _ rfl))
  | zero =>
    rw [insertFrom] at hP ⊢
    have hbehind : Act.Paired (Serving d₀)
        (fun a b _ _ => ∃ page, a = .wants ⟨t, page, .exclusive, .insert row 0 .tracked⟩ ∧ b = a)
        ((insertBehind t table row .tracked).on d) ((insertBehind t table row .tracked).on e) := by
      rw [insertBehind]
      refine (h.onPool ((Pool.agree_appendPage h.twins.pool table).paired fun _ _ h => h)).bind
        (fun _ _ h => h) fun page page' d e h heq => ?_
      obtain ⟨rfl, -⟩ := heq
      exact .answered h ⟨page', rfl, rfl⟩
    refine (hbehind.also (P := fun a d' => ∀ next, a = .wants next → P next d') ?_).mono
      (fun _ _ h => h) fun a b d e h hboth => ?_
    · rintro a d' hon next rfl
      exact hP next d' hon
    · obtain ⟨⟨page, rfl, rfl⟩, hnext⟩ := hboth
      exact .wants rfl (hworks d _ _) (hnext _ rfl)

theorem paired_insertHere (h : Serving d d e) (hroom : d.pool.disk.Roomy)
    (herrand : c.errand = .insert row ahead .tracked) (hshort : row.length ≤ maxRowSize) :
    Act.Paired (Serving d)
      (Goes c.txn fun next d' => ∀ n, c.Within d (n + 1) → d'.pool.disk.Roomy → next.Within d' n)
      ((insertHere c row ahead .tracked).on d) ((insertHere c row ahead .tracked).on e) := by
  rw [insertHere]
  refine (h.fetch hroom c.page).bind (fun _ _ h => h) fun f g d₁ e₁ h₁ hfetched => ?_
  obtain ⟨⟨hshowing, hkept⟩, -⟩ := hfetched
  have hplaced := (Pool.agree_placeRow hshowing c.txn row).paired fun _ _ h => h.twins
  have hfull : ∀ a p, (Pool.placeRow f c.txn row).on d₁.pool = (.ok (.ok a), p) → a = none →
      (d₁.pool.page f).image ≠ Image.blank := by
    rintro a p hon rfl
    exact Pool.ne_blank_of_placeRow hshort hon
  refine (h₁.onPool (hplaced.also hfull)).bind (fun _ _ h => h) fun a b d₂ e₂ h₂ hboth => ?_
  obtain ⟨⟨rfl, hshowing₂⟩, hfull⟩ := hboth
  cases b with
  | some rid => exact paired_afterChange h₂ hshowing₂ c.txn c.txn c.page.table (.inserted rid)
  | none =>
    refine paired_insertFrom h₂ c.txn c.page.table (c.page.pageNo + 1) hshort ahead
      fun next d' hon n hwithin hroom' => ?_
    -- A page that refuses the row is not blank, so it was not one that the call appended.
    have hahead : ahead + 2 ≤ n + 1 := by
      refine (hwithin.insert row ahead _ herrand).resolve_right fun hblank => hfull rfl ?_
      have hcached : d₁.pool.cachedPage? c.page = some (d₁.pool.page f) :=
        Buffer.cachedPage?_of_cached hshowing.left
      have htwins : d.pool.Twins d₁.pool := ⟨hkept.agreeing, h.twins.pool.first, hkept.reliable⟩
      have hcontent := (htwins.content? hroom c.page).trans hblank
      exact Option.some.inj ((Pool.content?_of_cached hcached).symm.trans hcontent)
    exact within_insertFrom hshowing₂.twins.first.coherent (by omega) hon hroom'

/-! ## Scanning -/

/-- Apart from its cursor, a scan looks at the number of pages only. -/
theorem scanFrom_same (id : CursorId) (cursor : Cursor) (harvest : Harvest)
    (hcount : ∀ page, e.pool.disk.count page = d.pool.disk.count page) :
    ∃ x, ((scanFrom id cursor harvest).on d = (x, d) ∧
        (scanFrom id cursor harvest).on e = (x, e)) ∨
      ∃ cursor', cursor.Alike cursor' ∧
        (scanFrom id cursor harvest).on d = (x, d.setCursor id cursor') ∧
        (scanFrom id cursor harvest).on e = (x, e.setCursor id cursor') := by
  have hend : ∀ (harvest : Harvest) (failure : Option Error), ∃ x, ∀ d : Database,
      (do return .finished (← Act.ofResult (harvested harvest failure)) :
        Act Database Progress).on d = (x, d) := by
    intro harvest failure
    simp only [Act.on_bind, Act.on_ofResult]
    cases harvested harvest failure with
    | error e => exact ⟨_, fun _ => rfl⟩
    | ok reply => exact ⟨_, fun _ => rfl⟩
  have hpage : ∀ (cursor' : Cursor) (harvest' : Harvest), cursor.Alike cursor' →
      ∃ x cursor'', cursor.Alike cursor'' ∧
        (wantPage id cursor' harvest').on d = (x, d.setCursor id cursor'') ∧
        (wantPage id cursor' harvest').on e = (x, e.setCursor id cursor'') := by
    intro cursor' harvest' halike
    have hclose : ∀ failure, ∃ x, ∀ d : Database,
        (endScan id cursor' harvest' failure).on d = (x, d.setCursor id cursor'.close) :=
      fun failure => (hend harvest' failure).imp fun x hx d => hx _
    simp only [wantPage, Act.on_bind, Act.on_get, hcount]
    split
    case h_1 err _ =>
      obtain ⟨x, hx⟩ := hclose (some err)
      exact ⟨x, cursor'.close, ⟨halike.txn, halike.table⟩, hx _, hx _⟩
    case h_2 =>
      split
      case isTrue =>
        obtain ⟨x, hx⟩ := hclose none
        exact ⟨x, cursor'.close, ⟨halike.txn, halike.table⟩, hx _, hx _⟩
      case isFalse => exact ⟨_, cursor', halike, rfl, rfl⟩
  unfold scanFrom
  split
  case isFalse =>
    obtain ⟨x, hx⟩ := hend harvest none
    exact ⟨x, Or.inl ⟨hx d, hx e⟩⟩
  case isTrue =>
    split
    case h_1 _ _ row rest _ =>
      exact ⟨.ok (.ok (.finished (.row (some row)))), Or.inr ⟨{ cursor with pending := rest },
        ⟨rfl, rfl⟩, rfl, rfl⟩⟩
    case h_2 =>
      obtain ⟨x, hx⟩ := hpage cursor .next (.refl cursor)
      exact ⟨x, Or.inr hx⟩
    case h_3 rows =>
      obtain ⟨x, hx⟩ := hpage { cursor with pending := [] } (.rest (rows ++ cursor.pending))
        ⟨rfl, rfl⟩
      exact ⟨x, Or.inr hx⟩

theorem paired_scanFrom {id : CursorId} {old cursor : Cursor} (h : Serving d₀ d e)
    (hget : d.cursors.get? id = some old) (halike : old.Alike cursor) (htxn : cursor.txn = t)
    (harvest : Harvest)
    (hP : ∀ next d', (scanFrom id cursor harvest).on d = (.ok (.ok (.wants next)), d') →
      P next d') :
    Act.Paired (Serving d₀) (Goes t P) ((scanFrom id cursor harvest).on d)
      ((scanFrom id cursor harvest).on e) := by
  have hgoes : ∀ (x : Checked (Except Error Progress)) (d' e' : Database), Serving d₀ d' e' →
      (scanFrom id cursor harvest).on d = (x, d') →
      Act.Paired (Serving d₀) (Goes t P) (x, d') (x, e') := by
    intro x d' e' h' hon
    rcases x with fault | e | progress
    · exact .faulted fault h'
    · exact .refused e h'
    cases progress with
    | finished reply => exact .answered h' (.finished (.refl reply))
    | wants next =>
      rcases scanFrom_cases id cursor harvest d with ⟨result, d₁, hends, -⟩ |
        ⟨cursor', harvest', hwants, halike', -, -⟩
      · have hresult := (Prod.mk.inj (hends.symm.trans hon)).1
        cases result with
        | error e => cases hresult
        | ok reply => cases hresult
      · have hP' := hP next d' hon
        obtain ⟨hcall, rfl⟩ := Prod.mk.inj (hwants.symm.trans hon)
        obtain rfl := Progress.wants.inj (Except.ok.inj (Except.ok.inj hcall))
        refine .answered h' (.wants (halike'.txn.trans htxn) ⟨none, ?_⟩ hP')
        exact .of_scan rfl (SortedMap.get?_insert_self _ _ _) rfl rfl
  rcases scanFrom_same id cursor harvest h.twins.pool.count_eq with
    ⟨x, ⟨hon, hon'⟩ | ⟨cursor', halike', hon, hon'⟩⟩
  · rw [hon']
    exact hon ▸ hgoes x d e h hon
  · rw [hon']
    exact hon ▸ hgoes x _ _ (h.setCursor hget (halike.trans halike')) hon

theorem paired_scanHere {id : CursorId} {cursor : Cursor} (h : Serving d d e)
    (hroom : d.pool.disk.Roomy) {harvest : Harvest} (herrand : c.errand = .scan id harvest)
    (hget : d.cursors.get? id = some cursor) (htxn : cursor.txn = c.txn) :
    Act.Paired (Serving d)
      (Goes c.txn fun next d' => ∀ n, c.Within d (n + 1) → d'.pool.disk.Roomy → next.Within d' n)
      ((scanHere c id harvest).on d) ((scanHere c id harvest).on e) := by
  rw [scanHere]
  refine (h.fetch hroom c.page).bind (fun _ _ h => h) fun f g d₁ e₁ h₁ hfetched => ?_
  obtain ⟨⟨hshowing, hkept⟩, hcursors⟩ := hfetched
  have hrows : (e₁.pool.page g).rows = (d₁.pool.page f).rows := by
    rw [Page.rows, Page.rows, hshowing.alike.image, hshowing.alike.id]
  simp only [Act.on_bind, Act.on_get, Act.on_checked, hrows]
  cases (d₁.pool.page f).rows with
  | error fault => exact .faulted fault h₁
  | ok rows =>
    have hget₁ : d₁.cursors.get? id = some cursor := by rwa [hcursors]
    have hget₂ : e₁.cursors.get? id = some cursor := by rwa [h₁.twins.cursors]
    simp only [Except.map, hget₁, hget₂]
    have halike : cursor.Alike (cursor.accept rows) := ⟨rfl, rfl⟩
    refine paired_scanFrom h₁ hget₁ halike htxn harvest fun next d' hon n hwithin _ => ?_
    have hpages := hwithin.scan id harvest cursor herrand hget
    rw [← hkept.agreeing.files.pageCount] at hpages
    exact within_scanFrom hpages hon

theorem paired_proceed (h : d.Twins e) (hroom : d.pool.disk.Roomy) (hworks : c.WorksFor cmd d) :
    Act.Paired (Serving d)
      (Goes c.txn fun next d' => ∀ n, c.Within d (n + 1) → d'.pool.disk.Roomy → next.Within d' n)
      ((proceed c).on d) ((proceed c).on e) := by
  rw [proceed]
  split
  case h_1 keep _ => exact paired_fetchHere h.serving hroom c keep
  case h_2 row ahead route herrand =>
    obtain ⟨rfl, -, hshort, -⟩ := hworks.insert row ahead route herrand
    exact paired_insertHere h.serving hroom herrand hshort
  case h_3 slot route herrand =>
    obtain ⟨rfl, -, -⟩ := hworks.delete slot route herrand
    exact paired_deleteHere h.serving hroom c slot
  case h_4 frame rest reply herrand => exact absurd herrand (hworks.detour frame rest reply)
  case h_5 id harvest herrand =>
    obtain ⟨cursor, hget, htxn, -⟩ := hworks.scan id harvest herrand
    exact paired_scanHere h.serving hroom herrand hget htxn

/-! ## Turns -/

/-- How the turn of a transaction changes who waits: it may fall asleep itself. -/
structure Turned (t : TxnId) (woken : List LockRequest) (d d' : Database) : Prop where
  sound : LockTable.Sound woken d'.locks
  calls : ∀ u, u ≠ t → d'.calls.get? u = d.calls.get? u
  cursors : CursorsKept d d'
  sleepers : d'.locks.sleepers = d.locks.sleepers ∨
    ∃ c, d'.locks.sleepers = d.locks.sleepers ++ [c.request] ∧ c.txn = t ∧
      d'.calls.get? t = some c ∧ ∃ cmd, c.WorksFor cmd d'

/-- A turn comes out alike in both databases. -/
structure Turns (t : TxnId) (woken : List LockRequest) (d : Database)
    (x y : Option Outcome × Database) : Prop where
  answer : (answerOf x.1).Alike (answerOf y.1)
  twins : x.2.Twins y.2
  turned : Turned t woken d x.2

theorem Turned.refl (hl : LockTable.Sound woken d.locks) (t : TxnId) : Turned t woken d d :=
  ⟨hl, fun _ _ => rfl, CursorsKept.refl d, Or.inl rfl⟩

theorem Serving.turned (h : Serving d d' e) (hl : LockTable.Sound woken d.locks) (t : TxnId) :
    Turned t woken d d' where
  sound := h.locks ▸ hl
  calls u _ := by rw [h.calls]
  cursors := h.cursors
  sleepers := Or.inl (by rw [h.locks])

/-- A turn that goes on from a database where nobody new sleeps. -/
theorem Turns.after {x y : Option Outcome × Database} (h : Turns t woken d' x y)
    (hcalls : ∀ u, u ≠ t → d'.calls.get? u = d.calls.get? u) (hcursors : CursorsKept d d')
    (hsleepers : d'.locks.sleepers = d.locks.sleepers) : Turns t woken d x y where
  answer := h.answer
  twins := h.twins
  turned := by
    refine ⟨h.turned.sound, fun u hne => (h.turned.calls u hne).trans (hcalls u hne),
      hcursors.trans h.turned.cursors, ?_⟩
    rw [← hsleepers]
    exact h.turned.sleepers

namespace Database.Twins

theorem symm (h : d.Twins e) : e.Twins d :=
  ⟨h.pool.symm, h.locks.symm, h.cursors.symm, h.calls.symm⟩

/-- Whatever somebody refers to, the databases show the same. -/
theorem letGo (h : d.Twins e) (who : Holder) : (d.letGo who).Twins (e.letGo who) :=
  h.withPools (h.pool.kept (h.pool.first.kept_withBuffer rfl rfl)
    (h.pool.second.kept_withBuffer rfl rfl))

theorem withCursors (h : d.Twins e) (cursors : SortedMap CursorId Cursor) :
    Database.Twins { d with cursors } { e with cursors } :=
  ⟨h.pool, h.locks, rfl, h.calls⟩

theorem setCursor (h : d.Twins e) (id : CursorId) (cursor : Cursor) :
    (d.setCursor id cursor).Twins (e.setCursor id cursor) := by
  rw [Database.setCursor, Database.setCursor, h.cursors]
  exact h.withCursors _

theorem updateCursor (h : d.Twins e) (id : CursorId) (f : Cursor → Cursor) :
    (d.updateCursor id f).Twins (e.updateCursor id f) := by
  rw [Database.updateCursor, Database.updateCursor, h.cursors]
  cases d.cursors.get? id with
  | none => exact h
  | some cursor => exact h.setCursor id (f cursor)

end Database.Twins

/-- A call that fails for the same reason. -/
theorem turns_fail (h : d.Twins e) (hl : LockTable.Sound woken d.locks) (c : Call) (err : Error) :
    Turns c.txn woken d (some (.ok (d.fail c err).1), (d.fail c err).2)
      (some (.ok (e.fail c err).1), (e.fail c err).2) := by
  have hletGo := h.letGo (.operation c.txn)
  have hkept : Turned c.txn woken d (d.letGo (.operation c.txn)) :=
    ⟨hl, fun _ _ => rfl, CursorsKept.refl d, Or.inl rfl⟩
  rw [fail, fail]
  split
  case h_2 => exact ⟨.refl _, hletGo, hkept⟩
  case h_1 cursor harvest _ =>
    refine ⟨.refl _, hletGo.updateCursor cursor Cursor.close, ?_⟩
    have hacted := acted_updateCursor (d.letGo (.operation c.txn)) c.txn cursor
      fun old => (⟨rfl, rfl⟩ : old.Alike old.close)
    refine ⟨?_, fun u _ => ?_, hacted.cursors, Or.inl ?_⟩
    · rw [hacted.locks]
      exact hl
    · rw [hacted.calls]
      rfl
    · rw [hacted.locks]
      rfl

/-- A call that finds no room says so. -/
theorem isExhausted_fail (c : Call) (d : Database) (capacity : Nat) :
    (answerOf (some (.ok (d.fail c (.exhausted capacity)).1))).isExhausted = true := by
  rw [fail]
  split
  case h_2 => rfl
  case h_1 cursor harvest _ => cases harvest <;> rfl

/-- No file gets shorter while a call runs. -/
theorem pages_le_turn (hp : d.pool.Reliable) (hworks : c.WorksFor cmd d) (n : Nat)
    (table : TableId) :
    d.pool.disk.pages table ≤ (runBounded n c d).2.pool.disk.pages table := by
  have hhoused : d.pool.Housed False := ⟨hp.coherent.framed, Or.inr hp.coherent.mounted⟩
  have hfits : c.Fits False d.pool.buffer := fun f rest reply herrand =>
    absurd herrand (hworks.detour f rest reply)
  have hgoes : c.GoesOn False False c.txn c.keeps? d := by
    refine ⟨rfl, hfits, fun _ h => h, fun id harvest herrand => ?_, False.elim⟩
    obtain ⟨cursor, hget, htxn, -⟩ := hworks.scan id harvest herrand
    exact ⟨cursor, hget, htxn⟩
  exact (took_runBounded n hhoused hgoes).pool.pages_le hhoused table

theorem turns_runBounded (n k : Nat) (hl : LockTable.Sound (c.request :: woken) d.locks)
    (h : d.Twins e) (hworks : c.WorksFor cmd d) (hn : c.Within d n) (hk : c.Within d k)
    (hroom : (runBounded n c d).2.pool.disk.Roomy)
    (hfits : ¬ (answerOf (runBounded n c d).1).isExhausted)
    (hfits' : ¬ (answerOf (runBounded k c e).1).isExhausted) :
    Turns c.txn woken d (runBounded n c d) (runBounded k c e) := by
  -- The bounds differ, for they depend on the caches; all that is known is that both suffice.
  induction n generalizing k c d e cmd with
  | zero => exact absurd hn.pos (Nat.lt_irrefl 0)
  | succ n ih =>
    obtain ⟨k, rfl⟩ := Nat.exists_eq_succ_of_ne_zero (Nat.ne_of_gt hk.pos)
    have hroom₀ : d.pool.disk.Roomy := hroom.of_le (pages_le_turn h.pool.first hworks (n + 1))
    have hsound := hl.request
    rw [runBounded] at hroom hfits hfits'
    rw [runBounded, runBounded]
    rw [h.locks] at hfits' ⊢
    rcases LockTable.request_cases hl.acyclic c.request with
      ⟨g, hgrant, hrequest⟩ | ⟨-, -, hrequest⟩ | ⟨-, -, hrequest⟩
    case inr.inl =>
      rw [hrequest] at hsound ⊢
      have htwins : Database.Twins { d with locks := d.locks.refuse c.request }
          { e with locks := d.locks.refuse c.request } := ⟨h.pool, rfl, h.cursors, h.calls⟩
      have hturns := turns_fail htwins hsound c (.deadlock c.txn c.page)
      simp only
      exact hturns.after (fun _ _ => rfl) (CursorsKept.refl d) rfl
    case inr.inr =>
      rw [hrequest] at hsound ⊢
      refine ⟨.refl _, ⟨h.pool, rfl, h.cursors, ?_⟩, hsound, fun u hne => ?_, CursorsKept.refl d,
        Or.inr ⟨c, rfl, rfl, SortedMap.get?_insert_self _ _ _, cmd, hworks.of_cursors_eq rfl⟩⟩
      · exact congrArg (fun calls : SortedMap TxnId Call => calls.insert c.txn c) h.calls
      · exact SortedMap.get?_insert_of_ne d.calls c (Ne.symm hne)
    case inl =>
      rw [hrequest] at hsound hroom hfits hfits' ⊢
      have htwins : Database.Twins { d with locks := d.locks.grantTo c.request g }
          { e with locks := d.locks.grantTo c.request g } := ⟨h.pool, rfl, h.cursors, h.calls⟩
      have hpaired := paired_proceed htwins hroom₀ (hworks.of_cursors_eq rfl)
      simp only at hroom hfits hfits' ⊢
      generalize (proceed c).on { d with locks := d.locks.grantTo c.request g } = x
        at hpaired hroom hfits ⊢
      generalize (proceed c).on { e with locks := d.locks.grantTo c.request g } = y
        at hpaired hfits' ⊢
      cases hpaired with
      | @answered a b d₁ e₁ hserving hgoes =>
        have hsound₁ : LockTable.Sound woken d₁.locks := hserving.locks ▸ hsound
        have hsleepers : d₁.locks.sleepers = d.locks.sleepers := by
          rw [hserving.locks]
          rfl
        cases hgoes with
        | finished hreply =>
          have hturns : Turns c.txn woken d₁ (some (.ok (.ok _)), d₁) (some (.ok (.ok _)), e₁) :=
            ⟨.replied hreply, hserving.twins, .refl hsound₁ c.txn⟩
          exact hturns.after (fun _ _ => by rw [hserving.calls]) hserving.cursors hsleepers
        | @wants next _ _ htxn hworks' hnext =>
          obtain ⟨cmd', hworks'⟩ := hworks'
          have hl₁ := sound_next hl hsound₁ hsleepers htxn
          have hroom₁ : d₁.pool.disk.Roomy :=
            hroom.of_le (pages_le_turn hserving.twins.pool.first hworks' n)
          have hwithin : ∀ n, c.Within d (n + 1) → next.Within d₁ n := fun n hn =>
            hnext n ⟨hn.pos, hn.insert, hn.scan⟩ hroom₁
          have hturns := htxn ▸ ih k hl₁ hserving.twins hworks' (hwithin n hn) (hwithin k hk)
            hroom hfits hfits'
          exact hturns.after (fun _ _ => by rw [hserving.calls]) hserving.cursors hsleepers
      | @refused err d₁ e₁ hserving =>
        have hsound₁ : LockTable.Sound woken d₁.locks := hserving.locks ▸ hsound
        have hturns := turns_fail hserving.twins hsound₁ c err
        exact hturns.after (fun _ _ => by rw [hserving.calls]) hserving.cursors
          (by rw [hserving.locks]; rfl)
      | @faulted fault d₁ e₁ hserving =>
        have hsound₁ : LockTable.Sound woken d₁.locks := hserving.locks ▸ hsound
        have hturns : Turns c.txn woken d₁
            (some (.error fault), d₁.letGo (.operation c.txn))
            (some (.error fault), e₁.letGo (.operation c.txn)) :=
          ⟨.refl _, hserving.twins.letGo _, hsound₁, fun _ _ => rfl, CursorsKept.refl d₁,
            Or.inl rfl⟩
        exact hturns.after (fun _ _ => by rw [hserving.calls]) hserving.cursors
          (by rw [hserving.locks]; rfl)
      | fullLeft capacity s y => exact absurd (isExhausted_fail c s capacity) hfits
      | fullRight capacity x s => exact absurd (isExhausted_fail c s capacity) hfits'

theorem turns_run (hl : LockTable.Sound (c.request :: woken) d.locks) (h : d.Twins e)
    (hworks : c.WorksFor cmd d) (hroom : (run c d).2.pool.disk.Roomy)
    (hfits : ¬ (answerOf (run c d).1).isExhausted) (hfits' : ¬ (answerOf (run c e).1).isExhausted) :
    Turns c.txn woken d (run c d) (run c e) := by
  have hroom₀ : d.pool.disk.Roomy := hroom.of_le (pages_le_turn h.pool.first hworks (d.patience c))
  have hwithin : c.Within d (e.patience c) :=
    h.symm.within (h.pool.agreeing.files.roomy hroom₀)
      (within_patience (hworks.of_cursors_eq h.cursors))
  exact turns_runBounded _ _ hl h hworks (within_patience hworks) hwithin hroom hfits hfits'

/-- The turn of a transaction that neither sleeps nor was woken. -/
theorem turns_start {act : Act Database Progress} (hl : LockTable.Sound woken d.locks)
    (hawake : ∀ r ∈ woken ++ d.locks.sleepers, r.txn ≠ t)
    (hact : Act.Paired (Serving d) (Goes t fun _ _ => True) (act.on d) (act.on e))
    (hroom : (start act d).2.pool.disk.Roomy) (hfits : ¬ (answerOf (start act d).1).isExhausted)
    (hfits' : ¬ (answerOf (start act e).1).isExhausted) :
    Turns t woken d (start act d) (start act e) := by
  rw [start] at hroom hfits hfits'
  rw [start, start]
  generalize act.on d = x at hact hroom hfits ⊢
  generalize act.on e = y at hact hfits' ⊢
  cases hact with
  | @answered a b d₁ e₁ hserving hgoes =>
    cases hgoes with
    | finished hreply => exact ⟨.replied hreply, hserving.twins, hserving.turned hl t⟩
    | @wants next _ _ htxn hworks _ =>
      obtain ⟨cmd, hworks⟩ := hworks
      have hl₁ : LockTable.Sound (next.request :: woken) d₁.locks := by
        rw [hserving.locks]
        exact hl.awake fun r hr heq => hawake r hr (heq.trans htxn)
      have hturns := htxn ▸ turns_run hl₁ hserving.twins hworks hroom hfits hfits'
      exact hturns.after (fun _ _ => by rw [hserving.calls]) hserving.cursors
        (by rw [hserving.locks])
  | refused err hserving => exact ⟨.refl _, hserving.twins, hserving.turned hl t⟩
  | faulted fault hserving => exact ⟨.refl _, hserving.twins, hserving.turned hl t⟩
  | fullLeft capacity s y => exact absurd rfl hfits
  | fullRight capacity x s => exact absurd rfl hfits'

/-! ## How calls begin -/

theorem paired_beginFetch (h : d.Twins e) (t : TxnId) (page : PageId) (mode : LockMode)
    (keep : Option HandleId) :
    let act : Act Database Progress := return .wants ⟨t, page, mode, .fetch keep⟩
    Act.Paired (Serving d) (Goes t fun _ _ => True) (act.on d) (act.on e) :=
  .answered h.serving (.wants rfl ⟨none, .of_fetch rfl⟩ trivial)

theorem paired_beginInsert (h : d.Twins e) (t : TxnId) (table : TableId) (row : Row) :
    Act.Paired (Serving d) (Goes t fun _ _ => True) ((beginInsert t table row .tracked).on d)
      ((beginInsert t table row .tracked).on e) := by
  simp only [beginInsert, if_true, Act.on_bind, Act.on_get, Act.on_ofResult]
  rcases h.pool.agreeing.files.lookup_cases table with ⟨s, s', hs, hs', -⟩ | ⟨err, he, he'⟩
  case inr =>
    rw [he, he']
    exact .refused err h.serving
  rw [hs, hs']
  simp only
  split
  case isTrue => exact .refused _ h.serving
  case isFalse hsmall =>
    simp only [Act.on_bind, Act.on_get, Act.on_ofResult, h.pool.first.working.count,
      h.pool.second.working.count, h.pool.agreeing.files.pageCount]
    exact paired_insertFrom h.serving t table 0 (Nat.le_of_not_lt hsmall) _ fun _ _ _ => trivial

theorem paired_beginDelete (h : d.Twins e) (t : TxnId) (table : TableId) (rid : RecordId) :
    Act.Paired (Serving d) (Goes t fun _ _ => True) ((beginDelete t table rid .tracked).on d)
      ((beginDelete t table rid .tracked).on e) := by
  simp only [beginDelete, if_true, Act.on_bind, Act.on_get, Act.on_ofResult]
  rcases h.pool.agreeing.files.lookup_cases table with ⟨s, s', hs, hs', hfile⟩ | ⟨err, he, he'⟩
  case inr =>
    rw [he, he']
    exact .refused err h.serving
  rw [hs, hs']
  simp only [(Disk.store?_of_lookup hs).1, (Disk.store?_of_lookup hs').1, Act.on_bind,
    Act.on_ofResult, Disk.require_of_working (h.pool.first.working _ s (Disk.store?_of_lookup hs).1),
    Disk.require_of_working (h.pool.second.working _ s' (Disk.store?_of_lookup hs').1),
    Disk.require_of_file hfile]
  cases s.volume.require rid.page with
  | error err => exact .refused err h.serving
  | ok u =>
    exact .answered h.serving
      (.wants rfl ⟨some (.delete t table rid .tracked), .of_delete rfl rfl rfl⟩ trivial)

end PagedHeap
