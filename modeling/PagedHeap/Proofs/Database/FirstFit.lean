import PagedHeap.Proofs.Database.Bystanders
import PagedHeap.Proofs.Database.Insertions
import PagedHeap.Proofs.Database.Schedules
import PagedHeap.Proofs.Pool.Records

/-!
# First fit

An insertion passes the pages of its table one after the other, and keeps those that it found full
for itself.  So when it places its row there is no room left on earlier pages, and when it appends a
page there is no room left on any.  But it counts the pages only when it begins: a page that others
append while it waits is never looked at.
-/

namespace PagedHeap

open Database

/-- The transaction has the page for itself, and there is no room on it for a row of the size. -/
structure Passed (t : TxnId) (size : Nat) (d : Database) (page : PageId) : Prop where
  owns : d.owns page t
  full : ∃ img, d.pool.Shows page img ∧ img.hasRoom size = .ok false

/-- An insertion has so many pages of the table ahead of it, from the next one on, in a turn that
began with `n` pages. -/
structure Walked (t : TxnId) (table : TableId) (size : Nat) (aside : Nat → Prop)
    (n next ahead : Nat) (d : Database) : Prop where
  within : next + ahead ≤ d.pool.disk.pages table
  /-- Its transaction has passed the other pages, but for those that came aside. -/
  passed : ∀ j < d.pool.disk.pages table,
    next ≤ j ∧ j < next + ahead ∨ Passed t size d (table.page j) ∨ aside j
  /-- If the turn has appended a page, it is the next one, or behind. -/
  latest : n < d.pool.disk.pages table → d.pool.disk.pages table ≤ next + 1

/-- The call inserts the row into the table and has walked up to its page. -/
structure Call.Walks (t : TxnId) (table : TableId) (row : Row) (aside : Nat → Prop) (n : Nat)
    (c : Call) (d : Database) : Prop where
  txn_eq : c.txn = t
  table_eq : c.page.table = table
  errand : ∃ ahead, c.errand = .insert row ahead .tracked ∧
    (d.pool.disk.pages table < pageBound →
      Walked t table row.length aside n c.page.pageNo.toNat (ahead + 1) d)

/-- The turn of an insertion places its row on the first page that has room, and appends a page only
if no page has any, where pages that came aside do not count. -/
structure FirstFit (table : TableId) (size : Nat) (aside : Nat → Prop) (p p' : Pool)
    (outcome : Option Outcome) : Prop where
  placed : ∀ rid, outcome = some (.ok (.ok (.inserted rid))) → rid.page.table = table ∧
    ∀ j < rid.page.pageNo.toNat, p'.Full (table.page j) size ∨ aside j
  appended : p.disk.pages table < p'.disk.pages table →
    ∀ j, j + 1 < p'.disk.pages table → p'.Full (table.page j) size ∨ aside j

/-- Another step than a turn of the transaction has appended the page to the table. -/
def AppendedAside (t : TxnId) (table : TableId) (m : Moment) (during : List Occurrence)
    (m' : Moment) (j : Nat) : Prop :=
  ∃ before o after m₁ m₂, during = before ++ o :: after ∧ Run m before m₁ ∧ Step m₁ o m₂ ∧
    Run m₂ after m' ∧ (∀ outcome, o ≠ .resumed t outcome) ∧
      m₁.db.pool.disk.pages table ≤ j ∧ j < m₂.db.pool.disk.pages table

variable {t u : TxnId} {table : TableId} {size next ahead n n' : Nat} {aside aside' : Nat → Prop}
  {d d' : Database} {c : Call} {row : Row} {page : PageId} {pageNo : UInt32} {p p' : Pool}
  {ops : List RowOp} {upkeep : Prop} {l l' : Ledger} {m m' m₀ m₁ : Moment} {o : Occurrence}
  {new : List Event} {outcome : Option Outcome} {cmd : Option Command}
  {before during : List Occurrence} {ends : Outcome → Database → Prop}

/-! ## Pages that were passed -/

namespace Passed

theorem pool_full (h : Passed t size d (table.page n))
    (hroom : d.pool.disk.pages table < pageBound) : d.pool.Full (table.page n) size := by
  obtain ⟨img, hshows, hfull⟩ := h.full
  rcases hshows with hcontent | ⟨-, -, hgone⟩
  · exact ⟨img, hcontent, hfull⟩
  · exact absurd hgone (Nat.not_le_of_lt hroom)

/-- A transaction that works on other pages does not make room on this one. -/
theorem acted (h : Passed t size d page) (hp : Pool.Coherent d.owns d.pool)
    (hacted : Acted u d d' ops) (hops : ∀ op ∈ ops, op.rid.page ≠ page) :
    Passed t size d' page := by
  obtain ⟨img, hshows, hfull⟩ := h.full
  obtain ⟨img', hreplay, hshows'⟩ := hacted.moves.shows hp hshows
  rw [RowOp.replay?_of_forall_ne hops] at hreplay
  obtain rfl := Option.some.inj hreplay
  refine ⟨?_, img, hshows', hfull⟩
  rw [hacted.owns_eq]
  exact h.owns

/-- A page that was just found full. -/
theorem of_full (howns : d.owns page t) (hfull : d.pool.Full page size) : Passed t size d page := by
  obtain ⟨img, hcontent, hroom⟩ := hfull
  exact ⟨howns, img, Or.inl hcontent, hroom⟩

/-- Others leave the page as it is while the transaction waits. -/
theorem of_waits (h : Passed t size m.db page) (hpasses : Passes upkeep l m o l' m' new)
    (hc : m.Waits c) (htxn : c.txn = t) (hother : ∀ outcome, o ≠ .resumed t outcome) :
    Passed t size m'.db page := by
  subst htxn
  obtain ⟨img, hshows, hfull⟩ := h.full
  refine ⟨hpasses.owns (hpasses.unended_of_waits hc) h.owns, img, ?_, hfull⟩
  exact hpasses.shows_of_waits hc hother hshows h.owns.1

end Passed

namespace Walked

theorem start (t : TxnId) (table : TableId) (size : Nat) (d : Database) :
    Walked t table size (fun _ => False) (d.pool.disk.pages table) 0 (d.pool.disk.pages table) d
    where
  within := Nat.le_of_eq (Nat.zero_add _)
  passed j hj := Or.inl ⟨Nat.zero_le j, (Nat.zero_add _).symm ▸ hj⟩
  latest hlt := absurd hlt (Nat.lt_irrefl _)

theorem of_passed (h : Walked t table size aside n next ahead d)
    (hpages : d'.pool.disk.pages table = d.pool.disk.pages table)
    (hpassed : ∀ page, Passed t size d page → Passed t size d' page) :
    Walked t table size aside n next ahead d' := by
  refine ⟨hpages.symm ▸ h.within, fun j hj => ?_, hpages.symm ▸ h.latest⟩
  apply (h.passed j (hpages ▸ hj)).imp_right
  exact Or.imp_left (hpassed _)

/-- Another turn begins with the pages that there are. -/
theorem again (h : Walked t table size aside n next ahead d) :
    Walked t table size aside (d.pool.disk.pages table) next ahead d :=
  ⟨h.within, h.passed, fun hlt => absurd hlt (Nat.lt_irrefl _)⟩

theorem acted (h : Walked t table size aside n next ahead d) (hp : Pool.Coherent d.owns d.pool)
    (hacted : Acted u d d' []) (hsame : Disk.SameFiles d.pool.disk d'.pool.disk) :
    Walked t table size aside n next ahead d' := by
  apply h.of_passed (hsame.pages table)
  intro page hpassed
  exact hpassed.acted hp hacted fun _ hop => absurd hop List.not_mem_nil

/-- The page that the insertion stands at is passed. -/
theorem pass (h : Walked t table size aside n next (ahead + 1) d)
    (hpassed : Passed t size d (table.page next)) :
    Walked t table size aside n (next + 1) ahead d := by
  refine ⟨?_, fun j hj => ?_, fun hlt => Nat.le_succ_of_le (h.latest hlt)⟩
  · have hwithin := h.within
    omega
  · rcases h.passed j hj with ⟨hle, hlt⟩ | hold
    · rcases Nat.eq_or_lt_of_le hle with rfl | hgt
      · exact Or.inr (Or.inl hpassed)
      · exact Or.inl ⟨hgt, by omega⟩
    · exact Or.inr hold

/-- A page is appended behind all, and is the only one ahead. -/
theorem append (h : Walked t table size aside n next 0 d) (hp : Pool.Coherent d.owns d.pool)
    (hacted : Acted u d d' [])
    (hpages : d'.pool.disk.pages table = d.pool.disk.pages table + 1) :
    Walked t table size aside n (d.pool.disk.pages table) 1 d' := by
  refine ⟨Nat.le_of_eq hpages.symm, fun j hj => ?_, fun _ => Nat.le_of_eq hpages⟩
  rw [hpages] at hj
  rcases Nat.eq_or_lt_of_le (Nat.le_of_lt_succ hj) with rfl | hlt
  · exact Or.inl ⟨Nat.le_refl _, Nat.lt_succ_self _⟩
  · rcases h.passed j hlt with ⟨hle, hnone⟩ | hpassed | haside
    · exact absurd hle (Nat.not_le_of_lt hnone)
    · exact Or.inr (Or.inl (hpassed.acted hp hacted fun _ hop => absurd hop List.not_mem_nil))
    · exact Or.inr (Or.inr haside)

/-- Pages that the insertion has behind it are full. -/
theorem full_behind (h : Walked t table size aside n next ahead d)
    (hroom : d.pool.disk.pages table < pageBound) {j : Nat} (hj : j < d.pool.disk.pages table)
    (hbehind : j < next) : d.pool.Full (table.page j) size ∨ aside j := by
  rcases h.passed j hj with ⟨hle, -⟩ | hpassed | haside
  · exact absurd hle (Nat.not_le_of_lt hbehind)
  · exact Or.inl (hpassed.pool_full hroom)
  · exact Or.inr haside

/-- A turn that ends without a row in its place. -/
theorem fits (h : Walked t table size aside (p.disk.pages table) next ahead d)
    (hroom : d.pool.disk.pages table < pageBound)
    (hnot : ∀ rid, outcome ≠ some (.ok (.ok (.inserted rid)))) :
    FirstFit table size aside p d.pool outcome := by
  refine ⟨fun rid heq => absurd heq (hnot rid), fun hgrown j hj => ?_⟩
  apply h.full_behind hroom (Nat.lt_of_succ_lt hj)
  have hlatest := h.latest hgrown
  omega

/-- A turn that ends with a row on the page that the insertion stands at. -/
theorem fits_placed (h : Walked t table size aside (p.disk.pages table) next (ahead + 1) d)
    (hp : Pool.Coherent d.owns d.pool) {rid : RecordId} (hpage : rid.page = table.page next)
    (hacted : Acted u d d' [.put rid row]) (hsame : Disk.SameFiles d.pool.disk d'.pool.disk)
    (hroom : d'.pool.disk.pages table < pageBound) :
    FirstFit table size aside p d'.pool (some (.ok (.ok (.inserted rid)))) := by
  have hpages := hsame.pages table
  have hwithin := h.within
  have hnext : next < UInt32.size := by
    rw [hpages] at hroom
    exact Nat.lt_trans (by omega) hroom
  have hbehind : ∀ j < next, d'.pool.Full (table.page j) size ∨ aside j := by
    intro j hj
    rcases h.passed j (by omega) with ⟨hle, -⟩ | hpassed | haside
    · exact absurd hle (Nat.not_le_of_lt hj)
    · refine Or.inl ((hpassed.acted hp hacted fun op hop heq => ?_).pool_full hroom)
      obtain rfl := List.mem_singleton.mp hop
      have hno := congrArg (fun id => id.pageNo.toNat) (hpage.symm.trans heq)
      simp only [table.toNat_page hnext, table.toNat_page (Nat.lt_trans hj hnext)] at hno
      exact absurd hno.symm (Nat.ne_of_lt hj)
    · exact Or.inr haside
  refine ⟨fun rid' heq => ?_, fun hgrown j hj => hbehind j ?_⟩
  · obtain rfl := Reply.inserted.inj (Except.ok.inj (Except.ok.inj (Option.some.inj heq)))
    rw [hpage, table.toNat_page hnext]
    exact ⟨rfl, hbehind⟩
  · have hlatest := h.latest (hpages ▸ hgrown)
    omega

end Walked

/-! ## Insertions leg by leg -/

/-- How a turn of an insertion ends. -/
structure EndsFit (t : TxnId) (table : TableId) (row : Row) (aside : Nat → Prop) (p : Pool)
    (outcome : Option Outcome) (d : Database) : Prop where
  asleep : outcome = none →
    ∃ c, d.calls.get? t = some c ∧ c.Walks t table row aside (p.disk.pages table) d
  fits : d.pool.disk.pages table < pageBound → FirstFit table row.length aside p d.pool outcome

theorem Call.Walks.of_passed (h : c.Walks t table row aside n d)
    (hpages : d'.pool.disk.pages table = d.pool.disk.pages table)
    (hpassed : ∀ page, Passed t row.length d page → Passed t row.length d' page) :
    c.Walks t table row aside n d' := by
  obtain ⟨htxn, htable, ahead, herrand, hwalked⟩ := h
  refine ⟨htxn, htable, ahead, herrand, fun hroom => ?_⟩
  exact (hwalked (hpages ▸ hroom)).of_passed hpages hpassed

theorem Call.Walks.mono (h : c.Walks t table row aside n d) (haside : ∀ j, aside j → aside' j) :
    c.Walks t table row aside' n d := by
  obtain ⟨htxn, htable, ahead, herrand, hwalked⟩ := h
  refine ⟨htxn, htable, ahead, herrand, fun hroom => ?_⟩
  obtain ⟨hwithin, hpassed, hlatest⟩ := hwalked hroom
  refine ⟨hwithin, fun j hj => ?_, hlatest⟩
  apply (hpassed j hj).imp_right
  exact Or.imp_right (haside j)

/-- Whoever lets go of a frame ends its turn with the pages as they are. -/
theorem EndsFit.letGo {outcome : Outcome}
    (h : d.pool.disk.pages table < pageBound →
      FirstFit table row.length aside p d.pool (some outcome)) (u : TxnId) :
    EndsFit t table row aside p (some outcome) (d.letGo (.operation u)) := by
  refine ⟨fun heq => (by cases heq), fun hroom => ?_⟩
  obtain ⟨hplaced, happended⟩ := h hroom
  exact ⟨hplaced, happended⟩

theorem fail_insert (herrand : c.errand = .insert row ahead .tracked) (d : Database) (e : Error) :
    d.fail c e = (.error e, d.letGo (.operation c.txn)) :=
  fail_of_not_scans (fun _ ⟨_, hscans⟩ => by cases herrand.symm.trans hscans) d e

/-- An insertion that fails ends its turn where it stands. -/
theorem concludes_walked {outcome : Outcome} (herrand : c.errand = .insert row ahead .tracked)
    (hwalked : d.pool.disk.pages table < pageBound →
      Walked t table row.length aside (p.disk.pages table) next n d)
    (hnot : ∀ reply, outcome ≠ .ok (.ok reply)) :
    c.Concludes (EndsFit t table row aside p) outcome d := by
  have hfits : ∀ outcome : Outcome, (∀ reply, outcome ≠ .ok (.ok reply)) →
      d.pool.disk.pages table < pageBound →
        FirstFit table row.length aside p d.pool (some outcome) := by
    intro outcome hnot hroom
    apply (hwalked hroom).fits hroom
    exact fun rid heq => hnot _ (Option.some.inj heq)
  rcases outcome with fault | e | reply
  · exact .letGo (hfits _ hnot) c.txn
  · rw [Call.Concludes, fail_insert herrand]
    exact .letGo (hfits _ fun reply heq => by cases heq) c.txn
  · exact absurd rfl (hnot reply)

/-- An insertion that has passed a page, or has passed none so far, wants the next one. -/
theorem lands_walked (hp : Pool.Coherent d.owns d.pool)
    (hwalked : d.pool.disk.pages table < pageBound →
      Walked t table row.length aside n pageNo.toNat ahead d)
    (hrefused : ∀ e, ends (.ok (.error e)) d) :
    Lands (Call.Walks t table row aside n) ends
      ((insertFrom t table pageNo row ahead .tracked).on d) := by
  apply lands_insertFrom hp table pageNo
  · rintro left rfl
    exact ⟨rfl, rfl, left, rfl, hwalked⟩
  · rintro p rfl hacted hbuffer hgrown hone
    refine ⟨rfl, rfl, 0, rfl, fun hroom => ?_⟩
    obtain ⟨hno, himage⟩ := hgrown.pages_id hroom
    have hlt := Disk.lt_pages_of_image? hgrown.mounted himage
    simp only at hno hlt ⊢
    have hpages : p.disk.pages table = d.pool.disk.pages table + 1 :=
      Nat.le_antisymm hone (hno ▸ hlt)
    rw [hno]
    refine Walked.append (hwalked ?_) hp hacted hpages
    exact Nat.lt_of_le_of_lt (hgrown.pages_le table) hroom
  · exact hrefused

theorem fit_kept (cmd : Option Command) (t : TxnId) (table : TableId) (row : Row)
    (aside : Nat → Prop) (p : Pool) :
    KeptByLegs cmd (Call.Walks t table row aside (p.disk.pages table))
      (EndsFit t table row aside p) where
  asks c d locks hwalks _ howns :=
    hwalks.of_passed rfl fun page hold => ⟨howns _ _ hold.owns, hold.full⟩
  endless c d hwalks := by
    obtain ⟨-, -, ahead, herrand, hwalked⟩ := hwalks
    exact concludes_walked herrand hwalked fun reply heq => by cases heq
  sleeps c d hwalks := by
    refine ⟨fun _ => ⟨c, ?_, hwalks.of_passed rfl fun page hold => ⟨hold.owns, hold.full⟩⟩,
      fun hroom => ?_⟩
    · rw [hwalks.txn_eq]
      exact SortedMap.get?_insert_self _ _ _
    · obtain ⟨-, -, ahead, -, hwalked⟩ := hwalks
      exact (hwalked hroom).fits hroom fun _ heq => by cases heq
  deadlock c d hwalks := by
    obtain ⟨-, -, ahead, herrand, hwalked⟩ := hwalks
    exact concludes_walked herrand hwalked fun reply heq => by cases heq
  granted c d hwalks hgranted := by
    obtain ⟨rfl, rfl, ahead, herrand, hwalked⟩ := hwalks
    obtain ⟨-, hmode, hshort, -⟩ := hgranted.works.insert row ahead _ herrand
    have hp := hgranted.coherent
    have howns := hgranted.owns hmode
    have hproceed : proceed c = insertHere c row ahead .tracked := by
      rw [proceed, herrand]
    rw [hproceed]
    -- Wherever the turn stops, it has changed no file since it came to the page.
    have hstill : ∀ d', Acted c.txn d d' [] → Disk.SameFiles d.pool.disk d'.pool.disk →
        d'.pool.disk.pages c.page.table < pageBound →
          Walked c.txn c.page.table row.length aside (p.disk.pages c.page.table)
            c.page.pageNo.toNat (ahead + 1) d' := by
      intro d' hacted hsame hroom
      rw [hsame.pages] at hroom
      exact (hwalked hroom).acted hp hacted hsame
    apply lands_insertHere hp howns hshort
    · intro rid d' hpage hacted hsame
      refine ⟨fun heq => (by cases heq), fun hroom => ?_⟩
      have hroom' := hroom
      rw [hsame.pages] at hroom'
      exact (hwalked hroom').fits_placed hp (hpage.trans c.page.eq_page) hacted hsame hroom
    · intro d' hacted hsame hfull
      have hpassed : Passed c.txn row.length d' c.page := by
        refine .of_full ?_ hfull
        rw [hacted.owns_eq]
        exact howns
      have honward : d'.pool.disk.pages c.page.table < pageBound →
          Walked c.txn c.page.table row.length aside (p.disk.pages c.page.table)
            (c.page.pageNo + 1).toNat ahead d' := by
        intro hroom
        have hhere := hstill d' hacted hsame hroom
        have hwithin := hhere.within
        have hsucc : (c.page.pageNo + 1).toNat = c.page.pageNo.toNat + 1 := by
          have hlt : c.page.pageNo.toNat + 1 < UInt32.size := Nat.lt_of_le_of_lt (by omega) hroom
          rw [UInt32.toNat_add]
          exact Nat.mod_eq_of_lt hlt
        rw [hsucc]
        exact hhere.pass (c.page.eq_page ▸ hpassed)
      apply lands_walked (hacted.coherent hp) honward
      exact fun e => concludes_walked herrand honward fun reply heq => by cases heq
    · intro e d' hacted hsame
      exact concludes_walked herrand (hstill d' hacted hsame) fun reply heq => by cases heq
    · intro fault d' hacted hsame
      exact concludes_walked herrand (hstill d' hacted hsame) fun reply heq => by cases heq

/-- An insertion that begins has all pages of its table ahead of it. -/
theorem lands_begun (hp : Pool.Coherent d.owns d.pool) (t : TxnId) (table : TableId) (row : Row) :
    Lands (Call.Walks t table row (fun _ => False) (d.pool.disk.pages table))
      (fun outcome d' => EndsFit t table row (fun _ => False) d.pool (some outcome) d')
      ((beginInsert t table row .tracked).on d) := by
  have hstart := Walked.start t table row.length d
  have hrefused : ∀ e : Error,
      EndsFit t table row (fun _ => False) d.pool (some (.ok (.error e))) d := by
    intro e
    refine ⟨fun heq => (by cases heq), fun hroom => hstart.fits hroom fun _ heq => by cases heq⟩
  apply lands_beginInsert table row hrefused
  intro _
  apply lands_walked hp ?_ hrefused
  intro hroom
  rw [Disk.toNat_pageCount hroom]
  exact hstart

/-! ## While the insertion waits -/

theorem AppendedAside.snoc {j : Nat} (h : AppendedAside t table m during m₁ j)
    (hstep : Step m₁ o m') : AppendedAside t table m (during ++ [o]) m' j := by
  obtain ⟨before, o', after, m₂, m₃, rfl, hbefore, happends, hafter, hrest⟩ := h
  refine ⟨before, o', after ++ [o], m₂, m₃, ?_, hbefore, happends, hafter.snoc hstep, hrest⟩
  rw [List.append_assoc, List.cons_append]

namespace Passes

/-- The insertion stays where it is while others have their turns. -/
theorem walks_of_waits (h : Passes upkeep l m o l' m' new) (hc : m.Waits c)
    (hwalks : c.Walks t table row aside n m.db) (hother : ∀ outcome, o ≠ .resumed t outcome)
    (haside : ∀ j, aside j → aside' j)
    (hgrown : ∀ j, m.db.pool.disk.pages table ≤ j → j < m'.db.pool.disk.pages table → aside' j) :
    m'.Waits c ∧ c.Walks t table row aside' (m'.db.pool.disk.pages table) m'.db := by
  obtain ⟨rfl, htable, ahead, herrand, hwalked⟩ := hwalks
  refine ⟨h.waits_of_waits hc hother, rfl, htable, ahead, herrand, fun hroom => ?_⟩
  have hle := h.effect.pages_le table
  obtain ⟨hwithin, hpassed, -⟩ := hwalked (Nat.lt_of_le_of_lt hle hroom)
  refine ⟨Nat.le_trans hwithin hle, fun j hj => ?_, fun hlt => absurd hlt (Nat.lt_irrefl _)⟩
  rcases Nat.lt_or_ge j (m.db.pool.disk.pages table) with hold | hnew
  · apply (hpassed j hold).imp_right
    exact Or.imp (fun hpage => hpage.of_waits h hc rfl hother) (haside j)
  · exact Or.inr (Or.inr (hgrown j hnew hj))

/-- A later turn of the insertion. -/
theorem fits_of_waits (h : Passes upkeep l m (.resumed t outcome) l' m' new) (hc : m.Waits c)
    (hwalks : c.Walks t table row aside n m.db) :
    (outcome = none → ∃ c n, m'.Waits c ∧ c.Walks t table row aside n m'.db) ∧
      (m'.db.pool.disk.pages table < pageBound →
        FirstFit table row.length aside m.db.pool m'.db.pool outcome) := by
  obtain ⟨rfl, htable, ahead, herrand, hwalked⟩ := hwalks
  generalize ho : Occurrence.resumed c.txn outcome = o at h
  cases h.stepped with
  | busy => cases ho
  | aside => cases ho
  | begun => cases ho
  | resumed c' hc' hready =>
    obtain ⟨htxn, rfl⟩ := Occurrence.resumed.inj ho
    obtain rfl := hc.eq_of_txn hc' htxn
    have hwaits := hready.waits
    have hbegins : c.Walks c.txn table row aside (m.db.pool.disk.pages table)
        { m.db with calls := m.db.calls.erase c.txn } := by
      refine ⟨rfl, htable, ahead, herrand, fun hroom => ?_⟩
      exact (hwalked hroom).again.of_passed rfl fun page hpage => ⟨hpage.owns, hpage.full⟩
    have hends := (fit_kept (l.pending c.txn) c.txn table row aside m.db.pool).run hready hbegins
    refine ⟨fun hnone => ?_, hends.fits⟩
    obtain ⟨c', hcall, hwalks⟩ := hends.asleep hnone
    exact ⟨c', _, (hwaits c').mpr (Or.inr ⟨hwalks.txn_eq, hnone, hcall⟩), hwalks⟩

/-- The turn in which the insertion is asked for. -/
theorem fits_of_begun
    (h : Passes upkeep l m (.command (.insert t table row .tracked) (answerOf outcome)) l' m' new) :
    (outcome = none →
        ∃ c n, m'.Waits c ∧ c.Walks t table row (fun _ => False) n m'.db) ∧
      (m'.db.pool.disk.pages table < pageBound →
        FirstFit table row.length (fun _ => False) m.db.pool m'.db.pool outcome) := by
  have hm := h.before
  generalize ho : Occurrence.command (.insert t table row .tracked) (answerOf outcome) = o at h
  cases h.stepped with
  | busy command =>
    obtain ⟨-, hanswer⟩ := Occurrence.command.inj ho
    exact absurd hanswer (answerOf_ne_busy outcome)
  | aside command answer _ hidle _ _ =>
    obtain ⟨rfl, -⟩ := Occurrence.command.inj ho
    exact absurd (.insert t table row) (hidle t _)
  | begun command u act hbegins hawake =>
    obtain ⟨rfl, hanswer⟩ := Occurrence.command.inj ho
    have hwaits := hm.waits_begun hbegins hawake
    have hproceeds := hbegins.proceeds hm.coherent
    cases hbegins
    obtain rfl := answerOf_injective hanswer
    have hends := (fit_kept _ t table row (fun _ => False) m.db.pool).start hm.sound hm.coherent
      hawake hproceeds (lands_begun hm.coherent t table row)
    refine ⟨fun hnone => ?_, hends.fits⟩
    obtain ⟨c, hcall, hwalks⟩ := hends.asleep hnone
    exact ⟨c, _, (hwaits c).mpr (Or.inr ⟨hwalks.txn_eq, hnone, hcall⟩), hwalks⟩
  | resumed => cases ho

end Passes

/-- As long as the call does not end it waits, and pages that others append come aside. -/
theorem Run.walks (hrun : Run m₁ during m) (hm : m₁.Consistent l)
    (horderly : OrderlyRun upkeep during) (hc : m₁.Waits c)
    (hwalks : c.Walks t table row (fun _ => False) n m₁.db)
    (hgoing : ∀ outcome, .resumed t (some outcome) ∉ during) :
    m.Consistent (during.foldl Ledger.note l) ∧
      ∃ c n, m.Waits c ∧ c.Walks t table row (AppendedAside t table m₁ during m) n m.db := by
  obtain ⟨hm', -, -, -, hkept⟩ := hrun.carries hm horderly
    (P := fun during _ m => Run m₁ during m ∧ ((∀ outcome, .resumed t (some outcome) ∉ during) →
      ∃ c n, m.Waits c ∧ c.Walks t table row (AppendedAside t table m₁ during m) n m.db))
    ⟨.nil, fun _ => ⟨c, n, hc, hwalks.mono fun _ hnone => hnone.elim⟩⟩
    fun during new m₂ o m₃ new' l₁ l₂ hkept _ hpasses => by
      obtain ⟨hrun, hwaits⟩ := hkept
      refine ⟨hrun.snoc hpasses.step, fun hgoing => ?_⟩
      obtain ⟨c, n, hc, hwalks⟩ := hwaits fun outcome hmem =>
        hgoing outcome (List.mem_append_left _ hmem)
      have haside : ∀ j, AppendedAside t table m₁ during m₂ j →
          AppendedAside t table m₁ (during ++ [o]) m₃ j := fun j h => h.snoc hpasses.step
      by_cases hmine : ∃ outcome, o = .resumed t outcome
      case neg =>
        have hother : ∀ outcome, o ≠ .resumed t outcome := fun outcome heq => hmine ⟨outcome, heq⟩
        refine ⟨c, _, hpasses.walks_of_waits hc hwalks hother haside fun j hlow hhigh => ?_⟩
        exact ⟨during, o, [], m₂, m₃, rfl, hrun, hpasses.step, .nil, hother, hlow, hhigh⟩
      obtain ⟨outcome, rfl⟩ := hmine
      have hnone : outcome = none := by
        cases outcome with
        | none => rfl
        | some ended =>
          exact absurd (List.mem_append_right _ (List.mem_singleton.mpr rfl)) (hgoing ended)
      obtain ⟨c', n', hc', hwalks'⟩ := (hpasses.fits_of_waits hc hwalks).1 hnone
      exact ⟨c', n', hc', hwalks'.mono haside⟩
  exact ⟨hm', hkept hgoing⟩

/-- Take any insertion in any run.  If it ends in the turn that it begins with, it places its row on
the first page that has room, and appends a page only if no page has any.  If it falls asleep, as
often as it may, the same holds of its later turns, but for pages that others have appended
meanwhile. -/
theorem insertion_first_fit {capacity : Nat} {journal : Journal} {disk : Disk}
    (hdisk : disk.Mounted) (hbefore : Run ⟨[], Database.create capacity journal disk⟩ before m₀)
    (horderly : OrderlyRun True before)
    (hcall : Step m₀ (.command (.insert t table row .tracked) (answerOf outcome)) m₁) :
    (m₁.db.pool.disk.pages table < pageBound →
      FirstFit table row.length (fun _ => False) m₀.db.pool m₁.db.pool outcome) ∧
    (outcome = none → ∀ during m outcome' m', Run m₁ during m → OrderlyRun True during →
      (∀ ended, .resumed t (some ended) ∉ during) → Step m (.resumed t outcome') m' →
        m'.db.pool.disk.pages table < pageBound →
          FirstFit table row.length (AppendedAside t table m₁ during m) m.db.pool m'.db.pool
            outcome') := by
  obtain ⟨hm₀, -⟩ := hbefore.induct hdisk horderly (P := fun _ _ => True) trivial
    fun _ _ _ _ _ _ _ => trivial
  obtain ⟨new, hpasses⟩ : ∃ new, Passes True (Ledger.of before) m₀ _ _ m₁ new :=
    hcall.passes hm₀ fun c answer heq => by
      obtain ⟨rfl, -⟩ := Occurrence.command.inj heq
      exact ⟨rfl, fun _ => trivial⟩
  obtain ⟨hwaits, hfits⟩ := hpasses.fits_of_begun
  refine ⟨hfits, fun hnone during m outcome' m' hrun hobeyed hgoing hresumed hroom => ?_⟩
  obtain ⟨c, n, hc, hwalks⟩ := hwaits hnone
  obtain ⟨hm, c', n', hc', hwalks'⟩ := hrun.walks hpasses.after hobeyed hc hwalks hgoing
  obtain ⟨new', hlater⟩ : ∃ new', Passes True _ m (.resumed t outcome') _ m' new' :=
    hresumed.passes hm fun c answer heq => by cases heq
  exact (hlater.fits_of_waits hc' hwalks').2 hroom

namespace Overlooked

/-- A page that one row of the largest size takes up. -/
def fullPage : Image :=
  Image.blank.overwrite 0 [1, 0, 0xF8, 0x0F, 8, 0, 0xF8, 0x0F]

def disk : Disk :=
  (∅ : Disk).put ⟨1⟩ { volume := .mount ⟨1⟩ (Medium.empty.writeBlock 0 fullPage) } |>.addTable ⟨1⟩

/-- The first transaction has the full page. -/
def held : List Occurrence × Moment :=
  Moment.obeying ⟨[], Database.create 8 .fresh disk⟩ [.fetch ⟨1⟩ ⟨⟨1⟩, 0⟩ .exclusive none]

def asked : Option Outcome × Database :=
  start (beginInsert ⟨2⟩ ⟨1⟩ [2] .tracked) held.2.db

/-- The second transaction waits for it. -/
def waiting : Moment :=
  ⟨held.2.woken, asked.2⟩

/-- The first transaction appends a page meanwhile. -/
def appended : List Occurrence × Moment :=
  waiting.obeying [.insert ⟨1⟩ ⟨1⟩ [1] .tracked, .commit ⟨1⟩]

def request : LockRequest :=
  ⟨⟨2⟩, ⟨⟨1⟩, 0⟩, .exclusive⟩

def turn : Option Outcome × Database :=
  appended.2.db.resumeOne request

def done : Moment :=
  ⟨appended.2.woken.erase request, turn.2⟩

def room? (p : Pool) (n : UInt32) : Option Bool :=
  (p.content? ⟨⟨1⟩, n⟩).bind fun img => (img.hasRoom 1).toOption

def placed? : Option Outcome → Option RecordId
  | some (.ok (.ok (.inserted rid))) => some rid
  | _ => none

theorem step_asked :
    Step held.2 (.command (.insert ⟨2⟩ ⟨1⟩ [2] .tracked) (answerOf asked.1)) waiting := by
  have hfree : held.2.isBusy (.insert ⟨2⟩ ⟨1⟩ [2] .tracked) = false := by decide +kernel
  exact Moment.step_insert hfree

theorem step_turn : Step appended.2 (.resumed ⟨2⟩ turn.1) done := by
  have hwoken : request ∈ appended.2.woken := by decide +kernel
  exact Step.resume request hwoken

theorem mounted_disk : disk.Mounted := by
  apply Disk.Mounted.addTable
  apply Disk.Mounted.put
  · exact fun _ _ hs => nomatch hs
  · rfl
  · rfl

end Overlooked

/-- The second row goes behind the page that has come aside. -/
theorem insertion_first_fit_aside :
    Overlooked.asked.1 = none ∧ Overlooked.placed? Overlooked.turn.1 = some ⟨⟨⟨1⟩, 2⟩, ⟨0⟩⟩ ∧
      FirstFit ⟨1⟩ 1
        (AppendedAside ⟨2⟩ ⟨1⟩ Overlooked.waiting Overlooked.appended.1 Overlooked.appended.2)
        Overlooked.appended.2.db.pool Overlooked.done.db.pool Overlooked.turn.1 := by
  have hbefore : Run ⟨[], Database.create 8 .fresh Overlooked.disk⟩ Overlooked.held.1
      Overlooked.held.2 := Moment.run_obeying _ _
  have horderly : OrderlyRun True Overlooked.held.1 :=
    Moment.orderlyRun_obeying (by simp [Command.IsOrderly]) _
  have hasleep : Overlooked.asked.1 = none := Option.isNone_iff_eq_none.mp (by decide +kernel)
  have hduring : Run Overlooked.waiting Overlooked.appended.1 Overlooked.appended.2 :=
    Moment.run_obeying _ _
  have hobeyed : OrderlyRun True Overlooked.appended.1 :=
    Moment.orderlyRun_obeying (by simp [Command.IsOrderly]) _
  have hgoing : ∀ ended, .resumed ⟨2⟩ (some ended) ∉ Overlooked.appended.1 := fun ended =>
    Moment.not_resumed_obeying _ _ _ _
  have hroom : Overlooked.done.db.pool.disk.pages ⟨1⟩ < pageBound := by decide +kernel
  refine ⟨hasleep, by decide +kernel, ?_⟩
  exact (insertion_first_fit Overlooked.mounted_disk hbefore horderly Overlooked.step_asked).2
    hasleep _ _ _ _ hduring hobeyed hgoing Overlooked.step_turn hroom

/-- There is room on the second page of the two, and yet a third page is appended for the row. -/
theorem insertion_overlooks_room :
    Run ⟨[], Database.create 8 .fresh Overlooked.disk⟩
        (Overlooked.held.1 ++
          .command (.insert ⟨2⟩ ⟨1⟩ [2] .tracked) (answerOf Overlooked.asked.1) ::
            (Overlooked.appended.1 ++ [.resumed ⟨2⟩ Overlooked.turn.1]))
        Overlooked.done ∧
      Overlooked.appended.2.db.pool.disk.pages ⟨1⟩ = 2 ∧
      Overlooked.room? Overlooked.appended.2.db.pool 1 = some true ∧
      Overlooked.placed? Overlooked.turn.1 = some ⟨⟨⟨1⟩, 2⟩, ⟨0⟩⟩ ∧
      Overlooked.room? Overlooked.done.db.pool 1 = some true := by
  have hrun := (Moment.run_obeying ⟨[], Database.create 8 .fresh Overlooked.disk⟩ _).trans
    ((Run.single Overlooked.step_asked).trans ((Moment.run_obeying Overlooked.waiting _).trans
      (Run.single Overlooked.step_turn)))
  exact ⟨hrun, by decide +kernel, by decide +kernel, by decide +kernel, by decide +kernel⟩

end PagedHeap
