import PagedHeap.Proofs.Database.Steps
import PagedHeap.Proofs.Pool.Balance

/-!
# Every call is answered

On pages in order no operation faults, and the bound on the lock requests of a turn is never
reached: an insertion meets the pages that lay ahead of it, then at most one page that others have
filled, and then a blank one; a scan meets every page once.
-/

namespace PagedHeap

open Database

variable {t : TxnId} {cmd : Option Command} {d d' : Database} {c next : Call} {row : Row}
  {n ahead : Nat} {woken : List LockRequest} {upkeep : Prop} {l : Ledger} {m m' : Moment}

/-! ## The lock requests of a turn -/

/-- The call needs no more than so many lock requests, unless it falls asleep. -/
structure Call.Within (c : Call) (d : Database) (n : Nat) : Prop where
  pos : 0 < n
  insert : ∀ row ahead route, c.errand = .insert row ahead route →
    ahead + 2 ≤ n ∨ d.pool.content? c.page = some Image.blank
  scan : ∀ id harvest cursor, c.errand = .scan id harvest → d.cursors.get? id = some cursor →
    (d.pool.disk.pageCount cursor.table).toNat < n + (cursor.next + 1).toNat

theorem within_patience (hworks : c.WorksFor cmd d) : c.Within d (d.patience c) := by
  have hahead : ∀ row ahead route, c.errand = .insert row ahead route →
      ahead + 2 ≤ d.patience c := by
    intro row ahead route herrand
    simp only [patience, herrand]
    omega
  have hpages : (d.pool.disk.pageCount c.page.table).toNat + 2 ≤ d.patience c := by
    simp only [patience]
    omega
  refine ⟨by omega, fun row ahead route herrand => Or.inl (hahead row ahead route herrand),
    fun id harvest cursor herrand hget => ?_⟩
  obtain ⟨cursor', hget', -, htable⟩ := hworks.scan id harvest herrand
  obtain rfl := Option.some.inj (hget.symm.trans hget')
  rw [htable]
  omega

/-- An insertion has one page less ahead of it; behind the last one it appends a blank page. -/
theorem within_insertFrom {owns : PageId → TxnId → Prop} (hp : Pool.Coherent owns d.pool)
    {table : TableId} {pageNo : UInt32} (hahead : ahead + 1 ≤ n)
    (hon : (insertFrom t table pageNo row ahead .tracked).on d = (.ok (.ok (.wants next)), d'))
    (hroom : d'.pool.disk.Roomy) : next.Within d' n := by
  cases ahead with
  | succ ahead =>
    obtain ⟨hnext, rfl⟩ := Prod.mk.inj hon
    obtain rfl := Progress.wants.inj (Except.ok.inj (Except.ok.inj hnext))
    refine ⟨by omega, fun row' ahead' route heq => Or.inl ?_, fun _ _ _ heq => by cases heq⟩
    obtain ⟨-, rfl, -⟩ := Errand.insert.inj heq
    omega
  | zero =>
    simp only [insertFrom, insertBehind, Act.on_bind, on_onPool] at hon
    rcases Pool.appendPage_cases hp.mounted table with
      ⟨id, p', happend, -, hbuffer, hgrown, -⟩ | ⟨e, happend⟩
    case inr =>
      rw [happend] at hon
      cases hon
    rw [happend] at hon
    obtain ⟨hnext, rfl⟩ := Prod.mk.inj hon
    obtain rfl := Progress.wants.inj (Except.ok.inj (Except.ok.inj hnext))
    refine ⟨by omega, fun row' ahead' route heq => Or.inr ?_, fun _ _ _ heq => by cases heq⟩
    obtain ⟨hlast, hblank⟩ := hgrown.pages_id (hroom id.table)
    -- A page that is cached lies before the end of its file, and the new one did not.
    have hnone : p'.cachedPage? id = none := by
      rw [Pool.cachedPage?, hbuffer]
      cases hcached : d.pool.buffer.cachedPage? id with
      | none => rfl
      | some page => exact absurd (hp.present id page hcached) (by omega)
    exact (Pool.content?_of_not_cached hnone).trans hblank

/-- A scan has one page less ahead of it. -/
theorem within_scanFrom {id : CursorId} {cursor : Cursor} {harvest : Harvest}
    (hpages : (d.pool.disk.pageCount cursor.table).toNat < n + 1 + cursor.next.toNat)
    (hon : (scanFrom id cursor harvest).on d = (.ok (.ok (.wants next)), d')) :
    next.Within d' n := by
  rcases scanFrom_cases id cursor harvest d with ⟨result, d₁, hends, -⟩ |
    ⟨cursor', harvest', hwants, halike, hnext, hlt⟩
  case inl =>
    rw [hends] at hon
    have hresult := (Prod.mk.inj hon).1
    cases result with
    | error e => cases hresult
    | ok reply => cases hresult
  rw [hwants] at hon
  obtain ⟨hcall, rfl⟩ := Prod.mk.inj hon
  obtain rfl := Progress.wants.inj (Except.ok.inj (Except.ok.inj hcall))
  rw [hnext, halike.table, UInt32.lt_iff_toNat_lt] at hlt
  have hbound := UInt32.toNat_lt (d.pool.disk.pageCount cursor.table)
  have hstep : (cursor.next + 1).toNat = cursor.next.toNat + 1 := by
    rw [UInt32.toNat_add]
    exact Nat.mod_eq_of_lt (Nat.lt_of_le_of_lt hlt hbound)
  refine ⟨by omega, fun _ _ _ heq => (by cases heq), fun id' harvest'' cursor'' heq hget => ?_⟩
  obtain ⟨rfl, -⟩ := Errand.scan.inj heq
  obtain rfl := Option.some.inj ((SortedMap.get?_insert_self _ _ _).symm.trans hget)
  rw [hnext, hstep, halike.table]
  exact Nat.lt_of_lt_of_le hpages (by omega)

theorem Fails.not_wants (h : Fails t d (.ok (.ok (.wants next)), d')) : False := by
  cases h

/-- What a granted call wants next is within what is left. -/
theorem within_proceed (hp : Pool.Coherent d.owns d.pool) (hworks : c.WorksFor cmd d)
    (howns : c.mode = .exclusive → d.owns c.page c.txn) (hwithin : c.Within d (n + 1))
    (hon : (proceed c).on d = (.ok (.ok (.wants next)), d')) (hroom : d'.pool.disk.Roomy) :
    next.Within d' n := by
  rw [proceed] at hon
  split at hon
  case h_1 keep _ =>
    rcases fetchHere_cases hp keep with ⟨_, _, hdone, -⟩ | hfails
    · cases hdone.symm.trans hon
    · exact (hon ▸ hfails).not_wants.elim
  case h_2 row ahead route herrand =>
    obtain ⟨rfl, hmode, hshort, -⟩ := hworks.insert row ahead route herrand
    rcases insertHere_cases hp (howns hmode) hshort ahead with
      ⟨_, _, hdone, -⟩ | ⟨d₁, hbehind, hacted, hfull, -⟩ | ⟨hfails, -⟩
    · cases hdone.symm.trans hon
    · have hahead := (hwithin.insert row ahead _ herrand).resolve_right
        (hacted.not_blank hp hfull hshort)
      exact within_insertFrom (hacted.coherent hp) (by omega) (hbehind.symm.trans hon) hroom
    · exact (hon ▸ hfails).not_wants.elim
  case h_3 slot route herrand =>
    obtain ⟨rfl, hmode, -⟩ := hworks.delete slot route herrand
    rcases deleteHere_cases hp (howns hmode) slot with ⟨_, hdone, -⟩ | hfails
    · cases hdone.symm.trans hon
    · exact (hon ▸ hfails).not_wants.elim
  case h_4 frame rest reply herrand => exact absurd herrand (hworks.detour frame rest reply)
  case h_5 id harvest herrand =>
    obtain ⟨cursor, hget, -⟩ := hworks.scan id harvest herrand
    rcases scanHere_cases hp hget harvest with ⟨p, rows, hbehind, -, hsame⟩ | hfails
    · have hpages := hwithin.scan id harvest cursor herrand hget
      rw [← hsame.pageCount] at hpages
      exact within_scanFrom hpages (hbehind.symm.trans hon)
    · exact (hon ▸ hfails).not_wants.elim

/-! ## Turns -/

theorem pages_le_runBounded (hl : LockTable.Sound (c.request :: woken) d.locks)
    (hp : Pool.Coherent d.owns d.pool) (hworks : c.WorksFor cmd d) (n : Nat) (table : TableId) :
    d.pool.disk.pages table ≤ (runBounded n c d).2.pool.disk.pages table := by
  cases n with
  | zero => exact Nat.le_refl _
  | succ n => exact (ran_runBounded n hl hp hworks).advanced.moves.pages_le table

/-- A turn that stays within its bound ends without a fault. -/
theorem runBounded_answers (hl : LockTable.Sound (c.request :: woken) d.locks)
    (hp : Pool.Coherent d.owns d.pool) (htidy : d.pool.Tidy) (hworks : c.WorksFor cmd d)
    (hwithin : c.Within d n) (hroom : (runBounded n c d).2.pool.disk.Roomy) (fault : Fault) :
    (runBounded n c d).1 ≠ some (.error fault) := by
  induction n generalizing c d with
  | zero => exact absurd hwithin.pos (Nat.lt_irrefl 0)
  | succ n ih =>
    rw [runBounded] at hroom ⊢
    have hasked := Advanced.of_request (t := c.txn) hl
    have hsound := hl.request
    rcases LockTable.request_cases hl.acyclic c.request with
      ⟨g, hgrant, hrequest⟩ | ⟨-, -, hrequest⟩ | ⟨-, -, hrequest⟩
    case inr.inl =>
      rw [hrequest]
      exact fun heq => by cases heq
    case inr.inr =>
      rw [hrequest]
      exact fun heq => by cases heq
    have hproceeds := proceeds_granted hl hp hworks hgrant hrequest
    rw [hrequest] at hasked hsound hroom ⊢
    have hp₁ := hasked.coherent hp
    simp only at hroom ⊢
    rcases hon : (proceed c).on { d with locks := d.locks.grantTo c.request g } with
      ⟨fault' | e | reply | next, d'⟩
    · rw [hon] at hproceeds
      obtain - | - | ⟨⟨⟩ | ⟨-, huntidy⟩⟩ := hproceeds
      exact absurd htidy huntidy
    · exact fun heq => by cases heq
    · exact fun heq => by cases heq
    · rw [hon] at hproceeds hroom
      obtain - | ⟨hacted, htxn, hworks'⟩ | ⟨⟨⟩⟩ := hproceeds
      have hsound' : LockTable.Sound woken d'.locks := hacted.locks ▸ hsound
      have hsleepers : d'.locks.sleepers = d.locks.sleepers := by
        rw [hacted.locks]
        rfl
      have hl' := sound_next hl hsound' hsleepers htxn
      have hp' := hacted.coherent hp₁
      have hwithin' : next.Within d' n :=
        within_proceed hp₁ (hworks.of_cursors_eq rfl)
          (granted_holds hgrant).2 ⟨hwithin.pos, hwithin.insert, hwithin.scan⟩ hon
          (hroom.of_le (pages_le_runBounded hl' hp' hworks' n))
      exact ih hl' hp' (hacted.moves.tidy hp₁ htidy) hworks' hwithin' hroom

theorem start_answers {act : Act Database Progress} (hl : LockTable.Sound woken d.locks)
    (hp : Pool.Coherent d.owns d.pool) (htidy : d.pool.Tidy)
    (hawake : ∀ r ∈ woken ++ d.locks.sleepers, r.txn ≠ t) (h : Proceeds t cmd d (act.on d))
    (hroom : (start act d).2.pool.disk.Roomy) (fault : Fault) :
    (start act d).1 ≠ some (.error fault) := by
  rw [start] at hroom ⊢
  generalize act.on d = x at h hroom ⊢
  cases h with
  | failed hfails =>
    cases hfails with
    | refused _ => exact fun heq => by cases heq
    | fault _ huntidy => exact absurd htidy huntidy
  | finished _ _ => exact fun heq => by cases heq
  | @wants c d' hacted htxn hworks =>
    subst htxn
    have hsound : LockTable.Sound (c.request :: woken) d'.locks := by
      rw [hacted.locks]
      exact hl.awake hawake
    exact runBounded_answers hsound (hacted.coherent hp) (hacted.moves.tidy hp htidy) hworks
      (within_patience hworks) hroom fault

/-! ## Runs -/

def Answer.IsFault : Answer → Prop
  | .faulted _ => True
  | _ => False

/-- The command or the turn ended in a fault. -/
def Occurrence.IsFault : Occurrence → Prop
  | .command _ answer => answer.IsFault
  | .resumed _ outcome => (answerOf outcome).IsFault

theorem not_isFault_answerOf {o : Option Outcome} (h : ∀ fault, o ≠ some (.error fault)) :
    ¬ (answerOf o).IsFault := by
  rcases o with _ | (fault | result)
  · exact id
  · exact absurd rfl (h fault)
  · exact id

theorem not_isFault_call {act : Act Database Progress} (hm : m.Consistent l)
    (htidy : m.db.pool.Tidy) (hawake : ∀ r ∈ m.woken ++ m.db.locks.sleepers, r.txn ≠ t)
    (h : Proceeds t cmd m.db (act.on m.db)) (hroom : (m.db.call act).2.pool.disk.Roomy) :
    ¬ (m.db.call act).1.answer.IsFault := by
  obtain ⟨hanswer, hdb⟩ := answer_call m.db act
  rw [hdb] at hroom
  rw [hanswer]
  exact not_isFault_answerOf (start_answers hm.sound hm.coherent htidy hawake h hroom)

theorem not_isFault_atOnce {act : Act Pool Unit} {result : Except Error Unit} {p : Pool}
    (hon : act.on d.pool = (.ok result, p)) : ¬ (d.atOnce act).1.answer.IsFault := by
  rw [atOnce, on_onPool, hon]
  exact id

theorem not_isFault_scan (hm : m.Consistent l) (htidy : m.db.pool.Tidy) {cursor : CursorId}
    (hfree : ∀ old, m.db.cursors.get? cursor = some old →
      ∀ r ∈ m.woken ++ m.db.locks.sleepers, r.txn ≠ old.txn)
    (harvest : Harvest) (hroom : (m.db.scan cursor harvest).2.pool.disk.Roomy) :
    ¬ (m.db.scan cursor harvest).1.answer.IsFault := by
  rw [scan] at hroom ⊢
  split at hroom
  case h_1 old hold =>
    have hproceeds : Proceeds old.txn none m.db ((scanFrom cursor old harvest).on m.db) :=
      proceeds_scanFrom hold rfl (.refl old) harvest
    exact not_isFault_call hm htidy (hfree old hold) hproceeds hroom
  case h_2 =>
    rw [(answer_call m.db _).1, start]
    simp only [Act.on_bind, Act.on_ofResult]
    cases harvested harvest none <;> exact id

/-- On pages in order a command that wakes nobody is answered. -/
theorem not_isFault_carryOut (hm : m.Consistent l) (htidy : m.db.pool.Tidy) {command : Command}
    (horderly : command.IsOrderly) (hfree : m.isBusy command = false)
    (hplain : command.releases = false) (hroom : (m.db.carryOut command).2.pool.disk.Roomy) :
    ¬ (m.db.carryOut command).1.answer.IsFault := by
  cases command with
  | fetch t page mode keep =>
    have hproceeds : Proceeds t none m.db _ := proceeds_fetch m.db t page mode keep
    exact not_isFault_call hm htidy (LockTable.isAsleep_eq_false.mp hfree) hproceeds hroom
  | insert t table row route =>
    obtain rfl : route = .tracked := horderly
    exact not_isFault_call hm htidy (LockTable.isAsleep_eq_false.mp hfree)
      (proceeds_beginInsert hm.coherent t table row) hroom
  | delete t table rid route =>
    obtain rfl : route = .tracked := horderly
    exact not_isFault_call hm htidy (LockTable.isAsleep_eq_false.mp hfree)
      (proceeds_beginDelete m.db t table rid) hroom
  | flushAll =>
    obtain ⟨result, p, hon, -⟩ := Pool.flushAll_cases hm.coherent ⟨0⟩
    exact not_isFault_atOnce hon
  | flushPage page =>
    obtain ⟨result, p, hon, -⟩ := Pool.flushPage_cases hm.coherent ⟨0⟩ page
    exact not_isFault_atOnce hon
  | flushOwned t =>
    obtain ⟨result, p, hon, -⟩ := Pool.flushOwned_cases hm.coherent ⟨0⟩ t _
    exact not_isFault_atOnce hon
  | next cursor => exact not_isFault_scan hm htidy (Moment.awake_of_rests hfree) .next hroom
  | rest cursor =>
    exact not_isFault_scan hm htidy (Moment.awake_of_rests hfree) (.rest []) hroom
  | commit t => cases hplain
  | abort t => cases hplain
  | openCursor | rewindCursor | closeCursor | dropHandle | setFaults | setVerdicts => exact id
  | _ => cases horderly

/-- So is every step. -/
theorem Step.not_isFault {o : Occurrence} (h : Step m o m') (hm : m.Consistent l)
    (htidy : m.db.pool.Tidy) (horderly : ∀ c answer, o = .command c answer → c.IsOrderly)
    (hroom : m'.db.pool.disk.Roomy) : ¬ o.IsFault := by
  cases h with
  | busy c hbusy => exact id
  | plain c hfree hplain =>
    exact not_isFault_carryOut hm htidy (horderly _ _ rfl) hfree hplain hroom
  | commit t result d hfree hsettle => exact id
  | commitFault t fault d hfree hsettle =>
    exact absurd (congrArg Prod.fst hsettle) (Pool.settle_ne_fault t _ m.db.pool fault)
  | abort t hfree => exact id
  | release t p hfree => exact id
  | resume r hr =>
    obtain ⟨c, rfl, hsound, hworks, hresume⟩ := hm.turn hr
    rw [hresume] at hroom ⊢
    have hworks' : c.WorksFor (l.pending c.txn) { m.db with calls := m.db.calls.erase c.txn } :=
      hworks.of_cursors_eq rfl
    exact not_isFault_answerOf
      (runBounded_answers hsound hm.coherent htidy hworks' (within_patience hworks') hroom)

/-- In an orderly run over files in order nobody is told of a fault, as long as page numbers are
left. -/
theorem orderly_runs_answer {capacity : Nat} {journal : Journal} {disk : Disk}
    {occurrences : List Occurrence} (hdisk : disk.Mounted)
    (hlayout : ∀ id img, disk.image? id = some img → img.Layout)
    (hrun : Run ⟨[], Database.create capacity journal disk⟩ occurrences m)
    (horderly : OrderlyRun upkeep occurrences) (hroom : m.db.pool.disk.Roomy) :
    ∀ o ∈ occurrences, ¬ o.IsFault := by
  induction hrun with
  | nil => exact fun o hmem => absurd hmem List.not_mem_nil
  | @snoc occurrences m' m'' o hrun hstep ih =>
    have hbefore : OrderlyRun upkeep occurrences := fun c answer hmem =>
      horderly c answer (List.mem_append_left _ hmem)
    have hlast : ∀ c answer, o = .command c answer → c.IsOrderly ∧ (c.Upkeep → upkeep) :=
      fun c answer heq =>
        horderly c answer (List.mem_append_right _ (List.mem_singleton.mpr heq.symm))
    obtain ⟨hm, htidy⟩ := hrun.induct hdisk hbefore (P := fun _ m => m.db.pool.Tidy)
      ⟨fun id page hcached => (by cases hcached), hlayout⟩ fun l l' m m' htidy hm hsequel => by
        obtain ⟨events, -, heffect⟩ := hsequel.effect
        exact heffect.tidy hm.coherent htidy
    obtain ⟨events, -, heffect⟩ := (hstep.sequel hm hlast).effect
    intro o' hmem
    rcases List.mem_append.mp hmem with hmem | hmem
    · exact ih hbefore (hroom.of_le heffect.pages_le) o' hmem
    · obtain rfl := List.mem_singleton.mp hmem
      exact hstep.not_isFault hm htidy (fun c answer heq => (hlast c answer heq).1) hroom

end PagedHeap
