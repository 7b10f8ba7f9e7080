import PagedHeap.Proofs.Database.Run
import PagedHeap.Proofs.Lock.Sound
import PagedHeap.Proofs.Pool.WriteBack

/-!
# Calls

What a call does between two lock requests is a list of moves of the pool, and a call that succeeds
has done to rows what its command and its reply say.  Nothing else of the database changes, but for
cursors, which stay with their transactions.
-/

namespace PagedHeap

open Database

namespace Database

def holds (d : Database) (id : PageId) (t : TxnId) : Prop :=
  t ∈ (d.locks.grantOf id).holders

def owns (d : Database) (id : PageId) (t : TxnId) : Prop :=
  (d.locks.grantOf id).Owns t

end Database

/-- The cursors scan one table for one transaction. -/
structure Cursor.Alike (c c' : Cursor) : Prop where
  txn : c'.txn = c.txn
  table : c'.table = c.table

/-- Every cursor stays, with its transaction and its table. -/
def CursorsKept (d d' : Database) : Prop :=
  ∀ id cursor, d.cursors.get? id = some cursor →
    ∃ cursor', d'.cursors.get? id = some cursor' ∧ cursor.Alike cursor'

/-- The call works for the command, through the catalog and with the locks that it needs. -/
structure Call.WorksFor (c : Call) (cmd : Option Command) (d : Database) : Prop where
  insert : ∀ row ahead route, c.errand = .insert row ahead route →
    route = .tracked ∧ c.mode = .exclusive ∧ row.length ≤ maxRowSize ∧
      ∀ rid, operationsOf cmd (.inserted rid) = [.put rid row]
  delete : ∀ slot route, c.errand = .delete slot route →
    route = .tracked ∧ c.mode = .exclusive ∧
      operationsOf cmd .deleted = [.remove ⟨c.page, slot⟩]
  detour : ∀ frame rest reply, c.errand ≠ .detour frame rest reply
  scan : ∀ id harvest, c.errand = .scan id harvest →
    ∃ cursor, d.cursors.get? id = some cursor ∧ cursor.txn = c.txn ∧ cursor.table = c.page.table

/-- What happens to the database while a call of a transaction runs under its locks. -/
structure Acted (t : TxnId) (d d' : Database) (ops : List RowOp) : Prop where
  locks : d'.locks = d.locks
  calls : d'.calls = d.calls
  cursors : CursorsKept d d'
  moves : Pool.Moves False d.owns t d.pool ops d'.pool

/-- The action is refused, or struck by a fault because of a page that is not in order. -/
inductive Fails (t : TxnId) (d : Database) : Checked (Except Error Progress) × Database → Prop
  | refused {e : Error} {d' : Database} (hacted : Acted t d d' []) : Fails t d (.ok (.error e), d')
  | fault {fault : Fault} {d' : Database} (hacted : Acted t d d' []) (huntidy : ¬ d.pool.Tidy) :
      Fails t d (.error fault, d')

/-- How an action on behalf of a command comes out. -/
inductive Proceeds (t : TxnId) (cmd : Option Command) (d : Database) :
    Checked (Except Error Progress) × Database → Prop
  | finished {reply : Reply} {d' : Database} (hacted : Acted t d d' (operationsOf cmd reply))
      (hfetched : ∀ page, reply = .fetched page →
        d'.pool.cachedPage? page.id = some page ∧ d'.holds page.id t) :
      Proceeds t cmd d (.ok (.ok (.finished reply)), d')
  | wants {next : Call} {d' : Database} (hacted : Acted t d d' []) (htxn : next.txn = t)
      (hworks : next.WorksFor cmd d') : Proceeds t cmd d (.ok (.ok (.wants next)), d')
  | failed {x : Checked (Except Error Progress) × Database} (hfails : Fails t d x) :
      Proceeds t cmd d x

variable {t u : TxnId} {cmd : Option Command} {d d' d'' : Database} {id : PageId} {f : FrameId}
  {ops ops' : List RowOp} {c : Call} {row : Row} {reply : Reply}

theorem Cursor.Alike.refl (c : Cursor) : c.Alike c := ⟨rfl, rfl⟩

theorem Cursor.Alike.trans {c c' c'' : Cursor} (h : c.Alike c') (h' : c'.Alike c'') : c.Alike c'' :=
  ⟨h'.txn.trans h.txn, h'.table.trans h.table⟩

theorem CursorsKept.refl (d : Database) : CursorsKept d d :=
  fun _ cursor h => ⟨cursor, h, .refl cursor⟩

theorem CursorsKept.trans (h : CursorsKept d d') (h' : CursorsKept d' d'') : CursorsKept d d'' := by
  intro id cursor hget
  obtain ⟨cursor', hget', halike⟩ := h id cursor hget
  obtain ⟨cursor'', hget'', halike'⟩ := h' id cursor' hget'
  exact ⟨cursor'', hget'', halike.trans halike'⟩

namespace Call.WorksFor

theorem mono (h : c.WorksFor cmd d) (hkept : CursorsKept d d') : c.WorksFor cmd d' := by
  refine ⟨h.insert, h.delete, h.detour, fun id harvest herrand => ?_⟩
  obtain ⟨cursor, hget, htxn, htable⟩ := h.scan id harvest herrand
  obtain ⟨cursor', hget', halike⟩ := hkept id cursor hget
  exact ⟨cursor', hget', halike.txn.trans htxn, halike.table.trans htable⟩

theorem of_cursors_eq (h : c.WorksFor cmd d) (hcursors : d'.cursors = d.cursors) :
    c.WorksFor cmd d' :=
  h.mono fun _ cursor hget => ⟨cursor, hcursors ▸ hget, .refl cursor⟩

/-- A call has to do with the cursors of its own transaction only. -/
theorem of_own_cursors (h : c.WorksFor cmd d) (hkept : ∀ id cursor,
    d.cursors.get? id = some cursor → cursor.txn = c.txn → d'.cursors.get? id = some cursor) :
    c.WorksFor cmd d' := by
  refine ⟨h.insert, h.delete, h.detour, fun id harvest herrand => ?_⟩
  obtain ⟨cursor, hget, htxn, htable⟩ := h.scan id harvest herrand
  exact ⟨cursor, hkept id cursor hget htxn, htxn, htable⟩

/-- A call that works for no command is a fetch or a scan. -/
theorem of_none (h : c.WorksFor none d) (cmd : Option Command) : c.WorksFor cmd d := by
  refine ⟨fun row ahead route herrand => ?_, fun slot route herrand => ?_, h.detour, h.scan⟩
  · have hserves := (h.insert row ahead route herrand).2.2.2 ⟨⟨⟨0⟩, 0⟩, ⟨0⟩⟩
    cases hserves
  · have hserves := (h.delete slot route herrand).2.2
    cases hserves

theorem of_fetch {keep : Option HandleId} (herrand : c.errand = .fetch keep) :
    c.WorksFor cmd d where
  insert _ _ _ h := by cases herrand.symm.trans h
  delete _ _ h := by cases herrand.symm.trans h
  detour _ _ _ h := by cases herrand.symm.trans h
  scan _ _ h := by cases herrand.symm.trans h

theorem of_insert {ahead : Nat} (herrand : c.errand = .insert row ahead .tracked)
    (hmode : c.mode = .exclusive) (hshort : row.length ≤ maxRowSize)
    (hserves : ∀ rid, operationsOf cmd (.inserted rid) = [.put rid row]) : c.WorksFor cmd d where
  insert _ _ _ h := by
    obtain ⟨rfl, -, rfl⟩ := Errand.insert.inj (herrand.symm.trans h)
    exact ⟨rfl, hmode, hshort, hserves⟩
  delete _ _ h := by cases herrand.symm.trans h
  detour _ _ _ h := by cases herrand.symm.trans h
  scan _ _ h := by cases herrand.symm.trans h

theorem of_delete {slot : SlotId} (herrand : c.errand = .delete slot .tracked)
    (hmode : c.mode = .exclusive)
    (hserves : operationsOf cmd .deleted = [.remove ⟨c.page, slot⟩]) : c.WorksFor cmd d where
  insert _ _ _ h := by cases herrand.symm.trans h
  delete _ _ h := by
    obtain ⟨rfl, rfl⟩ := Errand.delete.inj (herrand.symm.trans h)
    exact ⟨rfl, hmode, hserves⟩
  detour _ _ _ h := by cases herrand.symm.trans h
  scan _ _ h := by cases herrand.symm.trans h

theorem of_scan {id : CursorId} {harvest : Harvest} {cursor : Cursor}
    (herrand : c.errand = .scan id harvest) (hget : d.cursors.get? id = some cursor)
    (htxn : cursor.txn = c.txn) (htable : cursor.table = c.page.table) : c.WorksFor cmd d where
  insert _ _ _ h := by cases herrand.symm.trans h
  delete _ _ h := by cases herrand.symm.trans h
  detour _ _ _ h := by cases herrand.symm.trans h
  scan _ _ h := by
    obtain ⟨rfl, -⟩ := Errand.scan.inj (herrand.symm.trans h)
    exact ⟨cursor, hget, htxn, htable⟩

end Call.WorksFor

namespace Acted

theorem refl (t : TxnId) (d : Database) : Acted t d d [] :=
  ⟨rfl, rfl, CursorsKept.refl d, .refl⟩

theorem owns_eq (h : Acted t d d' ops) : d'.owns = d.owns := by
  funext id u
  rw [owns, h.locks, owns]

theorem holds_eq (h : Acted t d d' ops) : d'.holds = d.holds := by
  funext id u
  rw [holds, h.locks, holds]

theorem trans (h : Acted t d d' ops) (h' : Acted t d' d'' ops') : Acted t d d'' (ops ++ ops') where
  locks := h'.locks.trans h.locks
  calls := h'.calls.trans h.calls
  cursors := h.cursors.trans h'.cursors
  moves := h.moves.trans (h.owns_eq ▸ h'.moves)

theorem trans_nil (h : Acted t d d' ops) (h' : Acted t d' d'' []) : Acted t d d'' ops := by
  have hboth := h.trans h'
  rwa [List.append_nil] at hboth

theorem coherent (h : Acted t d d' ops) (hp : Pool.Coherent d.owns d.pool) :
    Pool.Coherent d'.owns d'.pool := by
  rw [h.owns_eq]
  exact h.moves.coherent hp

theorem onPool {p : Pool} (h : Pool.Moves False d.owns t d.pool ops p) :
    Acted t d (d.withPool p) ops :=
  ⟨rfl, rfl, CursorsKept.refl d, h⟩

/-- Changes of who refers to which frame. -/
theorem holders (hp : Pool.Coherent d.owns d.pool) {b : Buffer}
    (hframes : b.frames = d.pool.buffer.frames) (hcache : b.cache = d.pool.buffer.cache) :
    Acted t d (d.withPool (d.pool.withBuffer b)) [] :=
  onPool (.single (Pool.move_of_same hp.framed hframes hcache (Disk.SameFiles.refl _)
    (Or.inr fun h => h.withBuffer b)))

end Acted

theorem Fails.after {x : Checked (Except Error Progress) × Database}
    (hp : Pool.Coherent d.owns d.pool) (h : Acted t d d' []) (h' : Fails t d' x) : Fails t d x := by
  cases h' with
  | refused hacted => exact .refused (h.trans hacted)
  | fault hacted huntidy =>
    exact .fault (h.trans hacted) fun htidy => huntidy (h.moves.tidy hp htidy)

/-- An action that goes on where another one stopped. -/
theorem Proceeds.after {x : Checked (Except Error Progress) × Database}
    (hp : Pool.Coherent d.owns d.pool) (h : Acted t d d' []) (h' : Proceeds t cmd d' x) :
    Proceeds t cmd d x := by
  cases h' with
  | finished hacted hfetched => exact .finished (h.trans hacted) hfetched
  | wants hacted htxn hworks => exact .wants (h.trans hacted) htxn hworks
  | failed hfails => exact .failed (.after hp h hfails)

/-- A cursor does not rest if its transaction neither sleeps nor has been woken. -/
theorem Moment.awake_of_rests {m : Moment} {cursor : CursorId}
    (hrests : Database.rests { m.db with
      locks := { m.db.locks with sleepers := m.woken ++ m.db.locks.sleepers } } cursor = false) :
    ∀ old, m.db.cursors.get? cursor = some old →
      ∀ r ∈ m.woken ++ m.db.locks.sleepers, r.txn ≠ old.txn := by
  intro old hold
  rw [rests] at hrests
  simp only [hold] at hrests
  exact LockTable.isAsleep_eq_false.mp hrests

/-! ## Fetching -/

theorem fetch_cases (hp : Pool.Coherent d.owns d.pool) (t : TxnId) (id : PageId) :
    ∃ p, Acted t d (d.withPool p) [] ∧ Disk.SameFiles d.pool.disk p.disk ∧
      ((∃ f, (onPool (Pool.fetch id)).on d = (.ok (.ok f), d.withPool p) ∧
          p.buffer.cached? id = some f) ∨
        ∃ e, (onPool (Pool.fetch id)).on d = (.ok (.error e), d.withPool p)) := by
  obtain ⟨p, hmove, hsame, hcases⟩ := Pool.fetch_cases hp t id
  refine ⟨p, Acted.onPool (.single hmove), hsame, ?_⟩
  rw [on_onPool]
  rcases hcases with ⟨f, hon, hf⟩ | ⟨e, hon⟩
  · exact Or.inl ⟨f, by rw [hon], hf⟩
  · exact Or.inr ⟨e, by rw [hon]⟩

/-- A handle on the frame, if it is to be kept. -/
def Database.holdFor (d : Database) (keep : Option HandleId) (f : FrameId) : Database :=
  match keep with
  | some handle => d.hold (.handle handle) f
  | none => d

/-- The page is handed out as its frame has it. -/
theorem on_fetchHere (c : Call) (keep : Option HandleId) (d : Database) :
    (fetchHere c keep).on d = match (Pool.fetch c.page).on d.pool with
      | (.ok (.ok f), p) => (.ok (.ok (.finished (.fetched (p.page f)))),
          (d.withPool p).holdFor keep f)
      | (.ok (.error e), p) => (.ok (.error e), d.withPool p)
      | (.error fault, p) => (.error fault, d.withPool p) := by
  simp only [fetchHere, Act.on_bind, on_onPool]
  rcases (Pool.fetch c.page).on d.pool with ⟨fault | e | f, p⟩
  · rfl
  · rfl
  · cases keep with
    | none => rfl
    | some handle => rfl

theorem fetchHere_cases (hp : Pool.Coherent d.owns d.pool) (keep : Option HandleId) :
    (∃ page d', (fetchHere c keep).on d = (.ok (.ok (.finished (.fetched page))), d') ∧
      Acted c.txn d d' [] ∧ page.id = c.page ∧ d'.pool.cachedPage? c.page = some page) ∨
    Fails c.txn d ((fetchHere c keep).on d) := by
  obtain ⟨p, hmove, -, ⟨f, hon, hf⟩ | ⟨e, hon⟩⟩ := Pool.fetch_cases hp c.txn c.page
  case inr =>
    apply Or.inr
    rw [on_fetchHere, hon]
    exact .refused (Acted.onPool (.single hmove))
  have hacted : Acted c.txn d (d.withPool p) [] := Acted.onPool (.single hmove)
  have hid : (p.page f).id = c.page := ((hacted.coherent hp).framed c.page f hf).2
  rw [on_fetchHere, hon]
  refine Or.inl ⟨p.page f, (d.withPool p).holdFor keep f, rfl, ?_, hid, ?_⟩
  · cases keep with
    | none => exact hacted
    | some handle => exact hacted.trans (Acted.holders (hacted.coherent hp) rfl rfl)
  · cases keep with
    | none => exact Buffer.cachedPage?_of_cached hf
    | some handle => exact Buffer.cachedPage?_of_cached hf

theorem proceeds_fetchHere (hp : Pool.Coherent d.owns d.pool) (hholds : d.holds c.page c.txn)
    (keep : Option HandleId) : Proceeds c.txn cmd d ((fetchHere c keep).on d) := by
  rcases fetchHere_cases hp keep with ⟨page, d', hon, hacted, hid, hcached⟩ | hfails
  · rw [hon]
    refine .finished ?_ fun page' heq => ?_
    · rwa [operationsOf_eq_nil cmd (fun _ h => by cases h) (fun h => by cases h)]
    · obtain rfl := Reply.fetched.inj heq
      rw [hid, hacted.holds_eq]
      exact ⟨hcached, hholds⟩
  · exact .failed hfails

/-! ## Inserting and deleting -/

/-- A store without business of its own hands the changed page back at once. -/
theorem on_afterChange (hm : d.pool.disk.Mounted) (t : TxnId) (table : TableId) (f : FrameId)
    (reply : Reply) :
    (afterChange t table f reply).on d = (handBack t f reply []).on (d.hold (.operation t) f) := by
  simp only [afterChange, Act.on_bind, Act.on_modify, Act.on_get]
  split
  case h_1 => rfl
  case h_2 store hs =>
    have hdetours : store.detours = [] := (hm table store hs).2
    rw [hdetours]

/-- The changed page is tracked. -/
theorem afterChange_eq (hp : Pool.Coherent d.owns d.pool)
    (hf : d.pool.buffer.cached? id = some f) (howns : d.owns id t) (table : TableId)
    (reply : Reply) :
    ∃ d', (afterChange t table f reply).on d = (.ok (.ok (.finished reply)), d') ∧
      Acted t d d' [] ∧ d'.pool.disk = d.pool.disk := by
  have hback : ∀ d : Database, Pool.Coherent d.owns d.pool → d.pool.buffer.cached? id = some f →
      d.owns id t → ∃ d', (handBack t f reply []).on d = (.ok (.ok (.finished reply)), d') ∧
        Acted t d d' [] ∧ d'.pool.disk = d.pool.disk := by
    intro d hp hf howns
    have hletGo : Acted t d (d.letGo (.operation t)) [] := Acted.holders hp rfl rfl
    obtain ⟨p', hon, -, hdisk, hmove⟩ := Pool.track_eq (hletGo.coherent hp).framed hf howns
    have htrack : Acted t (d.letGo (.operation t)) ((d.letGo (.operation t)).withPool p') [] :=
      Acted.onPool (.single hmove)
    refine ⟨_, ?_, hletGo.trans htrack, hdisk⟩
    simp only [handBack, Act.on_bind, Act.on_modify, on_onPool, hon, Act.on_pure]
  have hhold : Acted t d (d.hold (.operation t) f) [] := Acted.holders hp rfl rfl
  obtain ⟨d', hon, hacted, hdisk⟩ := hback (d.hold (.operation t) f) (hhold.coherent hp) hf howns
  exact ⟨d', (on_afterChange hp.mounted t table f reply).trans hon, hhold.trans hacted, hdisk⟩

/-- The rest of an insertion that has found no room. -/
theorem proceeds_insertFrom (hp : Pool.Coherent d.owns d.pool) (table : TableId) (pageNo : UInt32)
    (ahead : Nat) (hshort : row.length ≤ maxRowSize)
    (hserves : ∀ rid, operationsOf cmd (.inserted rid) = [.put rid row]) :
    Proceeds t cmd d ((insertFrom t table pageNo row ahead .tracked).on d) := by
  have hworks : ∀ (d : Database) (page : PageId) (ahead : Nat),
      (⟨t, page, .exclusive, .insert row ahead .tracked⟩ : Call).WorksFor cmd d :=
    fun d page ahead => .of_insert rfl rfl hshort hserves
  cases ahead with
  | succ ahead => exact .wants (.refl t d) rfl (hworks d _ _)
  | zero =>
    simp only [insertFrom, insertBehind, Act.on_bind, on_onPool]
    rcases Pool.appendPage_cases hp.mounted table with
      ⟨id, p', hon, -, hbuffer, hgrown, hsteady, -⟩ | ⟨e, hon⟩
    · rw [hon]
      have hacted : Acted t d (d.withPool p') [] :=
        Acted.onPool (.single (Pool.move_of_grown hp.framed hbuffer hgrown hsteady))
      exact .wants hacted rfl (hworks _ _ _)
    · rw [hon]
      exact .failed (.refused (.onPool .refl))

/-- The page has no room for a row of the size. -/
def Pool.Full (p : Pool) (id : PageId) (size : Nat) : Prop :=
  ∃ img, p.content? id = some img ∧ img.hasRoom size = .ok false

/-- An insertion ends with the page, or goes on behind it if the page is full.  So far it has not
changed any file. -/
theorem insertHere_cases (hp : Pool.Coherent d.owns d.pool) (howns : d.owns c.page c.txn)
    (hshort : row.length ≤ maxRowSize) (ahead : Nat) :
    (∃ rid d',
      (insertHere c row ahead .tracked).on d = (.ok (.ok (.finished (.inserted rid))), d') ∧
      rid.page = c.page ∧ Acted c.txn d d' [.put rid row] ∧
      Disk.SameFiles d.pool.disk d'.pool.disk) ∨
    (∃ d', (insertHere c row ahead .tracked).on d =
        (insertFrom c.txn c.page.table (c.page.pageNo + 1) row ahead .tracked).on d' ∧
      Acted c.txn d d' [] ∧ d'.pool.Full c.page row.length ∧
      Disk.SameFiles d.pool.disk d'.pool.disk) ∨
    Fails c.txn d ((insertHere c row ahead .tracked).on d) ∧
      Disk.SameFiles d.pool.disk ((insertHere c row ahead .tracked).on d).2.pool.disk := by
  obtain ⟨p, hacted, hsame, ⟨f, hon, hf⟩ | ⟨e, hon⟩⟩ := fetch_cases hp c.txn c.page
  case inr =>
    apply Or.inr
    apply Or.inr
    simp only [insertHere, Act.on_bind, hon]
    exact ⟨.refused hacted, hsame⟩
  have hp₁ := hacted.coherent hp
  have howns₁ : (d.withPool p).owns c.page c.txn := by rwa [hacted.owns_eq]
  simp only [insertHere, Act.on_bind, hon, on_onPool]
  obtain ⟨p₂, hf₂, hdisk, ⟨rid, hon₂, hpage, hmoves⟩ | ⟨hon₂, hself, hfull⟩ |
    ⟨⟨e, hon₂⟩, hmove⟩ | ⟨⟨fault, hon₂⟩, hmove, huntidy⟩⟩ :=
      Pool.placeRow_cases hp₁.framed hf howns₁ hshort
  · have hplaced : Acted c.txn d ((d.withPool p).withPool p₂) [.put rid row] :=
      hacted.trans (.onPool hmoves)
    have howns₂ : ((d.withPool p).withPool p₂).owns c.page c.txn := by rwa [hplaced.owns_eq]
    obtain ⟨d', hdone, htracked, hdisk'⟩ :=
      afterChange_eq (hplaced.coherent hp) hf₂ howns₂ c.page.table (.inserted rid)
    refine Or.inl ⟨rid, d', ?_, hpage, hplaced.trans_nil htracked, ?_⟩
    · rw [hon₂]
      exact hdone
    · rw [hdisk']
      exact hdisk.symm ▸ hsame
  · have hcached : p.cachedPage? c.page = some (p.page f) := Buffer.cachedPage?_of_cached hf
    rw [hon₂, hself]
    exact Or.inr (Or.inl ⟨_, rfl, hacted, ⟨_, Pool.content?_of_cached hcached, hfull⟩, hsame⟩)
  · rw [hon₂]
    exact Or.inr (Or.inr ⟨.after hp hacted (.refused (.onPool (.single hmove))),
      hdisk.symm ▸ hsame⟩)
  · rw [hon₂]
    exact Or.inr (Or.inr ⟨.after hp hacted (.fault (.onPool (.single hmove)) huntidy),
      hdisk.symm ▸ hsame⟩)

/-- A blank page is never found full. -/
theorem Acted.not_blank (hp : Pool.Coherent d.owns d.pool) (h : Acted t d d' [])
    (hfull : d'.pool.Full id row.length) (hshort : row.length ≤ maxRowSize) :
    d.pool.content? id ≠ some Image.blank := by
  intro hblank
  obtain ⟨img, hcontent, hroom⟩ := hfull
  obtain ⟨img', hreplay, hshows⟩ := h.moves.shows hp (Or.inl hblank)
  obtain rfl := Option.some.inj hreplay
  rcases hshows with hcontent' | ⟨hnone, himage, -⟩
  · obtain rfl := Option.some.inj (hcontent'.symm.trans hcontent)
    cases (Image.hasRoom_blank hshort).symm.trans hroom
  · rw [Pool.content?_of_not_cached hnone, himage] at hcontent
    cases hcontent

theorem proceeds_insertHere (hp : Pool.Coherent d.owns d.pool) (howns : d.owns c.page c.txn)
    (ahead : Nat) (hshort : row.length ≤ maxRowSize)
    (hserves : ∀ rid, operationsOf cmd (.inserted rid) = [.put rid row]) :
    Proceeds c.txn cmd d ((insertHere c row ahead .tracked).on d) := by
  rcases insertHere_cases hp howns hshort ahead with ⟨rid, d', hon, -, hacted, -⟩ |
    ⟨d', hon, hacted, -⟩ | ⟨hfails, -⟩
  · rw [hon]
    refine .finished ?_ fun _ h => by cases h
    rwa [hserves]
  · rw [hon]
    exact .after hp hacted (proceeds_insertFrom (hacted.coherent hp) _ _ _ hshort hserves)
  · exact .failed hfails

theorem deleteHere_cases (hp : Pool.Coherent d.owns d.pool) (howns : d.owns c.page c.txn)
    (slot : SlotId) :
    (∃ d', (deleteHere c slot .tracked).on d = (.ok (.ok (.finished .deleted)), d') ∧
      Acted c.txn d d' [.remove ⟨c.page, slot⟩]) ∨
    Fails c.txn d ((deleteHere c slot .tracked).on d) := by
  obtain ⟨p, hacted, -, ⟨f, hon, hf⟩ | ⟨e, hon⟩⟩ := fetch_cases hp c.txn c.page
  case inr =>
    apply Or.inr
    simp only [deleteHere, Act.on_bind, hon]
    exact .refused hacted
  have hp₁ := hacted.coherent hp
  have howns₁ : (d.withPool p).owns c.page c.txn := by rwa [hacted.owns_eq]
  simp only [deleteHere, Act.on_bind, hon, on_onPool]
  obtain ⟨p₂, hf₂, ⟨hon₂, hmoves⟩ | ⟨⟨e, hon₂⟩, hmove⟩ | ⟨⟨fault, hon₂⟩, hmove, huntidy⟩⟩ :=
    Pool.removeRow_cases hp₁.framed hf howns₁ slot
  · have hremoved : Acted c.txn d ((d.withPool p).withPool p₂) [.remove ⟨c.page, slot⟩] :=
      hacted.trans (.onPool hmoves)
    have howns₂ : ((d.withPool p).withPool p₂).owns c.page c.txn := by rwa [hremoved.owns_eq]
    obtain ⟨d', hdone, htracked, -⟩ :=
      afterChange_eq (hremoved.coherent hp) hf₂ howns₂ c.page.table .deleted
    refine Or.inl ⟨d', ?_, hremoved.trans_nil htracked⟩
    rw [hon₂]
    exact hdone
  · rw [hon₂]
    exact Or.inr (.after hp hacted (.refused (.onPool (.single hmove))))
  · rw [hon₂]
    exact Or.inr (.after hp hacted (.fault (.onPool (.single hmove)) huntidy))

theorem proceeds_deleteHere (hp : Pool.Coherent d.owns d.pool) (howns : d.owns c.page c.txn)
    (slot : SlotId) (hserves : operationsOf cmd .deleted = [.remove ⟨c.page, slot⟩]) :
    Proceeds c.txn cmd d ((deleteHere c slot .tracked).on d) := by
  rcases deleteHere_cases hp howns slot with ⟨d', hon, hacted⟩ | hfails
  · rw [hon]
    refine .finished ?_ fun _ h => by cases h
    rwa [hserves]
  · exact .failed hfails

/-! ## Scanning -/

theorem acted_setCursor {id : CursorId} {cursor cursor' : Cursor}
    (hget : d.cursors.get? id = some cursor) (halike : cursor.Alike cursor') :
    Acted t d (d.setCursor id cursor') [] := by
  refine ⟨rfl, rfl, fun id' old hold => ?_, .refl⟩
  by_cases heq : id = id'
  · subst heq
    obtain rfl := Option.some.inj (hget.symm.trans hold)
    exact ⟨cursor', SortedMap.get?_insert_self d.cursors id cursor', halike⟩
  · exact ⟨old, (SortedMap.get?_insert_of_ne d.cursors cursor' heq).trans hold, .refl old⟩

/-- A reply that hands out rows of a scan. -/
def Reply.OfScan (reply : Reply) : Prop :=
  (∃ row, reply = .row row) ∨ ∃ rows failure, reply = .rest rows failure

theorem ofScan_harvested {harvest : Harvest} {failure : Option Error}
    (h : harvested harvest failure = .ok reply) : reply.OfScan := by
  cases harvest with
  | next =>
    cases failure with
    | none => exact Or.inl ⟨_, (Except.ok.inj h).symm⟩
    | some e => cases h
  | rest rows => exact Or.inr ⟨_, _, (Except.ok.inj h).symm⟩

theorem Reply.OfScan.operationsOf_eq_nil (h : reply.OfScan) (cmd : Option Command) :
    operationsOf cmd reply = [] := by
  rcases h with ⟨row, rfl⟩ | ⟨rows, failure, rfl⟩
  · exact PagedHeap.operationsOf_eq_nil cmd (fun _ h => by cases h) fun h => by cases h
  · exact PagedHeap.operationsOf_eq_nil cmd (fun _ h => by cases h) fun h => by cases h

theorem Reply.OfScan.ne_fetched (h : reply.OfScan) (page : Page) : reply ≠ .fetched page := by
  rcases h with ⟨row, rfl⟩ | ⟨rows, failure, rfl⟩
  · exact fun h => by cases h
  · exact fun h => by cases h

/-- The scan hands out rows or an error, and has moved its cursor at most. -/
def EndsScan (id : CursorId) (cursor : Cursor) (d : Database)
    (x : Checked (Except Error Progress) × Database) : Prop :=
  ∃ (result : Except Error Reply) (d' : Database), x = (.ok (result.map .finished), d') ∧
    (∀ reply, result = .ok reply → reply.OfScan) ∧
    (d' = d ∨ ∃ cursor', d' = d.setCursor id cursor' ∧ cursor.Alike cursor')

/-- The scan wants the page that its cursor stands in front of. -/
def WantsPage (id : CursorId) (cursor : Cursor) (d : Database)
    (x : Checked (Except Error Progress) × Database) : Prop :=
  ∃ cursor' harvest, x =
      (.ok (.ok (.wants ⟨cursor'.txn, cursor'.nextPage, .shared, .scan id harvest⟩)),
        d.setCursor id cursor') ∧
    cursor.Alike cursor' ∧ cursor'.next = cursor.next ∧
      cursor'.next < d.pool.disk.pageCount cursor'.table

theorem scanFrom_cases (id : CursorId) (cursor : Cursor) (harvest : Harvest) (d : Database) :
    EndsScan id cursor d ((scanFrom id cursor harvest).on d) ∨
      WantsPage id cursor d ((scanFrom id cursor harvest).on d) := by
  have hend : ∀ (d' : Database) (harvest : Harvest) (failure : Option Error),
      (d' = d ∨ ∃ cursor', d' = d.setCursor id cursor' ∧ cursor.Alike cursor') →
      EndsScan id cursor d ((do return .finished (← Act.ofResult (harvested harvest failure)) :
        Act Database Progress).on d') := by
    intro d' harvest failure hd'
    refine ⟨harvested harvest failure, d', ?_, fun reply hreply => ofScan_harvested hreply, hd'⟩
    simp only [Act.on_bind, Act.on_ofResult]
    cases harvested harvest failure with
    | error e => rfl
    | ok reply => rfl
  have hpage : ∀ (cursor' : Cursor) (harvest' : Harvest), cursor.Alike cursor' →
      cursor'.next = cursor.next →
      EndsScan id cursor d ((wantPage id cursor' harvest').on d) ∨
        WantsPage id cursor d ((wantPage id cursor' harvest').on d) := by
    intro cursor' harvest' halike hnext
    have hclose : ∀ failure, EndsScan id cursor d ((endScan id cursor' harvest' failure).on d) :=
      fun failure => hend _ harvest' failure (Or.inr ⟨_, rfl, halike.txn, halike.table⟩)
    simp only [wantPage, Act.on_bind, Act.on_get]
    split
    case h_1 e _ => exact Or.inl (hclose (some e))
    case h_2 count hcount =>
      obtain rfl := Disk.count_eq_ok hcount
      split
      case isTrue => exact Or.inl (hclose none)
      case isFalse hlt =>
        exact Or.inr ⟨cursor', harvest', rfl, halike, hnext, UInt32.not_le.mp hlt⟩
  unfold scanFrom
  split
  case isFalse => exact Or.inl (hend d harvest none (Or.inl rfl))
  case isTrue =>
    split
    case h_1 _ _ row rest _ =>
      exact Or.inl ⟨.ok (.row (some row)), _, rfl,
        fun reply hreply => Or.inl ⟨_, (Except.ok.inj hreply).symm⟩, Or.inr ⟨_, rfl, rfl, rfl⟩⟩
    case h_2 => exact hpage cursor .next (.refl cursor) rfl
    case h_3 rows pending _ => exact hpage _ _ ⟨rfl, rfl⟩ rfl

theorem proceeds_scanFrom {id : CursorId} {cursor cursor' : Cursor}
    (hget : d.cursors.get? id = some cursor) (htxn : cursor.txn = t)
    (halike : cursor.Alike cursor') (harvest : Harvest) :
    Proceeds t cmd d ((scanFrom id cursor' harvest).on d) := by
  rcases scanFrom_cases id cursor' harvest d with ⟨result, d', hon, hscan, hd'⟩ |
    ⟨cursor'', harvest', hon, halike', -, -⟩
  · have hacted : Acted t d d' [] := by
      rcases hd' with rfl | ⟨cursor'', rfl, halike'⟩
      · exact .refl t d'
      · exact acted_setCursor hget (halike.trans halike')
    rw [hon]
    cases result with
    | error e => exact .failed (.refused hacted)
    | ok reply =>
      have hreply := hscan reply rfl
      refine .finished ?_ fun page heq => absurd heq (hreply.ne_fetched page)
      rw [hreply.operationsOf_eq_nil]
      exact hacted
  · rw [hon]
    have hsame := halike.trans halike'
    exact .wants (acted_setCursor hget hsame) (hsame.txn.trans htxn)
      (.of_scan rfl (SortedMap.get?_insert_self _ _ _) rfl rfl)

/-- A scan goes on with the rows of the page, unless the page cannot be had. -/
theorem scanHere_cases (hp : Pool.Coherent d.owns d.pool) {id : CursorId} {cursor : Cursor}
    (hget : d.cursors.get? id = some cursor) (harvest : Harvest) :
    (∃ p rows, (scanHere c id harvest).on d =
        (scanFrom id (cursor.accept rows) harvest).on (d.withPool p) ∧
      Acted c.txn d (d.withPool p) [] ∧ Disk.SameFiles d.pool.disk p.disk) ∨
    Fails c.txn d ((scanHere c id harvest).on d) := by
  obtain ⟨p, hacted, hsame, ⟨f, hon, hf⟩ | ⟨e, hon⟩⟩ := fetch_cases hp c.txn c.page
  case inr =>
    apply Or.inr
    simp only [scanHere, Act.on_bind, hon]
    exact .refused hacted
  have hcursor : (d.withPool p).cursors.get? id = some cursor := hget
  simp only [scanHere, Act.on_bind, hon, Act.on_get, Act.on_checked]
  cases hrows : ((d.withPool p).pool.page f).rows with
  | error fault =>
    refine Or.inr (.fault hacted fun htidy => ?_)
    have hlayout : ((d.withPool p).pool.page f).image.Layout :=
      ((hacted.moves.tidy hp htidy).page hf).1
    rw [Page.rows, hlayout.rows_eq] at hrows
    cases hrows
  | ok rows =>
    refine Or.inl ⟨p, rows, ?_, hacted, hsame⟩
    simp only [Except.map, hcursor]

theorem proceeds_scanHere (hp : Pool.Coherent d.owns d.pool) {id : CursorId} {cursor : Cursor}
    (hget : d.cursors.get? id = some cursor) (htxn : cursor.txn = c.txn) (harvest : Harvest) :
    Proceeds c.txn cmd d ((scanHere c id harvest).on d) := by
  rcases scanHere_cases hp hget harvest with ⟨p, rows, hon, hacted, -⟩ | hfails
  · rw [hon]
    have hcursor : (d.withPool p).cursors.get? id = some cursor := hget
    have halike : cursor.Alike (cursor.accept rows) := ⟨rfl, rfl⟩
    exact .after hp hacted (proceeds_scanFrom hcursor htxn halike harvest)
  · exact .failed hfails

theorem proceeds_proceed (hp : Pool.Coherent d.owns d.pool) (hworks : c.WorksFor cmd d)
    (hholds : d.holds c.page c.txn) (howns : c.mode = .exclusive → d.owns c.page c.txn) :
    Proceeds c.txn cmd d ((proceed c).on d) := by
  rw [proceed]
  split
  case h_1 keep _ => exact proceeds_fetchHere hp hholds keep
  case h_2 row ahead route herrand =>
    obtain ⟨rfl, hmode, hshort, hserves⟩ := hworks.insert row ahead route herrand
    exact proceeds_insertHere hp (howns hmode) ahead hshort hserves
  case h_3 slot route herrand =>
    obtain ⟨rfl, hmode, hserves⟩ := hworks.delete slot route herrand
    exact proceeds_deleteHere hp (howns hmode) slot hserves
  case h_4 frame rest reply herrand => exact absurd herrand (hworks.detour frame rest reply)
  case h_5 id harvest herrand =>
    obtain ⟨cursor, hget, htxn, -⟩ := hworks.scan id harvest herrand
    exact proceeds_scanHere hp hget htxn harvest

end PagedHeap
