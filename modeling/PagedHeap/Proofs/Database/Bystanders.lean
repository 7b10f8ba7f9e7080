import PagedHeap.Proofs.Database.Isolation
import PagedHeap.Proofs.Database.Legs

/-!
# Bystanders

What a step tells of changed rows comes from the reply to one call.  So while a call waits and
others have their turns, nothing is told of its transaction, the call goes on waiting, and the pages that
its transaction holds stay as they are.
-/

namespace PagedHeap

open Database

variable {t u : TxnId} {d : Database} {c : Call} {cmd : Option Command} {reply : Reply}
  {command : Command} {act : Act Database Progress} {rid : RecordId} {row : Row} {op : RowOp}
  {upkeep : Prop} {l l' : Ledger} {m m' : Moment} {o : Occurrence} {outcome : Option Outcome}
  {new : List Event} {page : PageId} {img : Image}

/-! ## Replies -/

/-- A call of the transaction is replied to, at once or in a later turn. -/
inductive Occurrence.Replies (u : TxnId) (reply : Reply) : Occurrence → Prop
  | command (c : Command) (hcaller : c.caller? = some u) :
      Replies u reply (.command c (.replied (.ok reply)))
  | resumed : Replies u reply (.resumed u (some (.ok (.ok reply))))

theorem Event.mem_of_changed (h : .changed u op ∈ Event.ofReply t cmd reply) :
    u = t ∧ op ∈ operationsOf cmd reply := by
  cases reply with
  | fetched page => cases List.mem_singleton.mp h
  | _ =>
    obtain ⟨op', hop, heq⟩ := List.mem_map.mp h
    obtain ⟨rfl, rfl⟩ := Event.changed.inj heq
    exact ⟨rfl, hop⟩

/-- Whoever is said to have changed a row was replied to. -/
theorem Ledger.replies_of_changed (hnote : (l.note o).events = l.events ++ new)
    (hmem : .changed u op ∈ new) :
    ∃ reply cmd, o.Replies u reply ∧ op ∈ operationsOf cmd reply := by
  have hnothing : (l.note o).events ≠ l.events := by
    intro hsame
    rw [hsame] at hnote
    rw [List.self_eq_append_right.mp hnote] at hmem
    cases hmem
  have hended : ∀ t committed, (l.note o).events ≠ l.events ++ [.ended t committed] := by
    intro t committed hevents
    rw [List.append_cancel_left (hnote.symm.trans hevents)] at hmem
    cases List.mem_singleton.mp hmem
  have hreplied : ∀ t cmd reply, o.Replies t reply →
      (l.note o).events = l.events ++ Event.ofReply t cmd reply →
      ∃ reply cmd, o.Replies u reply ∧ op ∈ operationsOf cmd reply := by
    intro t cmd reply hreplies hevents
    rw [List.append_cancel_left (hnote.symm.trans hevents)] at hmem
    obtain ⟨rfl, hop⟩ := Event.mem_of_changed hmem
    exact ⟨reply, cmd, hreplies, hop⟩
  cases o with
  | resumed t outcome =>
    rcases outcome with _ | (fault | (e | reply))
    · exact absurd rfl hnothing
    · exact absurd rfl hnothing
    · exact absurd rfl hnothing
    · exact hreplied t _ reply .resumed rfl
  | command command answer =>
    cases hcaller : command.caller? with
    | some t =>
      cases command with
      | fetch | insert | delete =>
        rcases answer with _ | _ | (e | reply) | result | fault
        · exact absurd rfl hnothing
        · exact absurd rfl hnothing
        · exact absurd rfl hnothing
        · exact hreplied _ _ reply (.command _ rfl) rfl
        · exact absurd rfl hnothing
        · exact absurd rfl hnothing
      | _ => cases hcaller
    | none =>
      cases command with
      | commit t =>
        cases answer with
        | done result => exact absurd rfl (hended t _)
        | faulted fault => exact absurd rfl (hended t _)
        | _ => exact absurd rfl hnothing
      | abort t =>
        cases answer with
        | done result => exact absurd rfl (hended t _)
        | _ => exact absurd rfl hnothing
      | fetch | insert | delete => cases hcaller
      | _ => exact absurd rfl hnothing

/-- A row is put by an insertion. -/
theorem eq_inserted_of_mem (h : .put rid row ∈ operationsOf cmd reply) : reply = .inserted rid := by
  rcases cmd with _ | command
  · cases h
  simp only [operationsOf, Command.operations] at h
  split at h
  · obtain ⟨rfl, -⟩ := RowOp.put.inj (List.mem_singleton.mp h)
    rfl
  · cases List.mem_singleton.mp h
  · cases h

theorem answerOf_eq_replied {result : Except Error Reply} (h : answerOf outcome = .replied result) :
    outcome = some (.ok result) := by
  rcases outcome with _ | (fault | result')
  · cases h
  · cases h
  · obtain rfl := Answer.replied.inj h
    rfl

theorem Begins.txn_eq (h : Begins d command t act) (hcaller : command.caller? = some u) :
    u = t := by
  cases h with
  | fetch => exact (Option.some.inj hcaller).symm
  | insert => exact (Option.some.inj hcaller).symm
  | delete => exact (Option.some.inj hcaller).symm
  | next => cases hcaller
  | rest => cases hcaller

/-- A call that works for a command begins with it. -/
theorem exists_begins_of_caller (horderly : command.IsOrderly) (hcaller : command.caller? = some u)
    (d : Database) : ∃ act, Begins d command u act := by
  cases command with
  | fetch t page mode keep =>
    obtain rfl := Option.some.inj hcaller
    exact ⟨_, .fetch t page mode keep⟩
  | insert t table row route =>
    obtain rfl := Option.some.inj hcaller
    obtain rfl : route = .tracked := horderly
    exact ⟨_, .insert t table row⟩
  | delete t table rid route =>
    obtain rfl := Option.some.inj hcaller
    obtain rfl : route = .tracked := horderly
    exact ⟨_, .delete t table rid⟩
  | _ => cases hcaller

/-! ## While a call waits -/

namespace Passes

/-- Whoever waits does not end. -/
theorem unended_of_waits (h : Passes upkeep l m o l' m' new) (hc : m.Waits c) :
    Unended c.txn new := by
  have hplain : (∀ command answer, o = .command command answer → command.releases = false) →
      Unended c.txn new := by
    intro hplain
    obtain ⟨new', hevents, hnone⟩ := l.note_unended hplain
    rw [← h.noted, h.events] at hevents
    obtain rfl := List.append_cancel_left hevents
    exact hnone c.txn
  have hended : ∀ t committed, l'.events = l.events ++ [.ended t committed] →
      m.isBusy (.abort t) = false → Unended c.txn new := by
    intro t committed hevents hfree committed' hmem
    rw [List.append_cancel_left (h.events.symm.trans hevents)] at hmem
    obtain ⟨rfl, -⟩ := Event.ended.inj (List.mem_singleton.mp hmem)
    exact LockTable.isAsleep_eq_false.mp hfree c.request hc.request rfl
  have hnoted := congrArg Ledger.events h.noted
  cases h.step with
  | busy command hbusy =>
    have hsame : (l.note (.command command .busy)).events = l.events := by
      cases command <;> rfl
    have hnone : new = [] := List.self_eq_append_right.mp ((hnoted.trans hsame).symm.trans h.events)
    rw [hnone]
    exact fun _ hmem => absurd hmem List.not_mem_nil
  | plain command hfree hrelease =>
    refine hplain fun command' answer heq => ?_
    obtain ⟨rfl, -⟩ := Occurrence.command.inj heq
    exact hrelease
  | commit t result d hfree hsettle => exact hended t _ hnoted hfree
  | commitFault t fault d hfree hsettle => exact hended t _ hnoted hfree
  | abort t hfree => exact hended t _ hnoted hfree
  | release t p hfree => exact absurd (h.orderly _ _ rfl) id
  | resume r hr => exact hplain fun command answer heq => by cases heq

/-- Whoever waits changes nothing before its turn. -/
theorem operationsIn_of_waits (h : Passes upkeep l m o l' m' new) (hc : m.Waits c)
    (hother : ∀ outcome, o ≠ .resumed c.txn outcome) : operationsIn c.txn new = [] := by
  refine List.eq_nil_iff_forall_not_mem.mpr fun op hop => ?_
  obtain ⟨reply, cmd, hreplies, -⟩ :=
    Ledger.replies_of_changed (h.noted ▸ h.events) (mem_operationsIn.mp hop)
  cases hreplies with
  | resumed => exact hother _ rfl
  | command command hcaller =>
    generalize ho : Occurrence.command command (.replied (.ok reply)) = o at h
    have horderly := h.orderly command _ ho.symm
    cases h.stepped with
    | busy => cases ho
    | aside command' answer _ hidle _ _ =>
      obtain ⟨rfl, -⟩ := Occurrence.command.inj ho
      obtain ⟨act, hbegins⟩ := exists_begins_of_caller horderly hcaller m.db
      exact hidle _ _ hbegins
    | begun command' t act hbegins hawake =>
      obtain ⟨rfl, -⟩ := Occurrence.command.inj ho
      exact hawake _ hc.request (hbegins.txn_eq hcaller)
    | resumed => cases ho

/-- The call goes on waiting while others have their turns. -/
theorem waits_of_waits (h : Passes upkeep l m o l' m' new) (hc : m.Waits c)
    (hother : ∀ outcome, o ≠ .resumed c.txn outcome) : m'.Waits c := by
  cases h.stepped with
  | busy => exact hc
  | aside command answer _ _ hwaits _ => exact (hwaits c).mpr hc
  | begun command t act hbegins hawake =>
    exact (h.before.waits_begun hbegins hawake c).mpr (Or.inl ⟨hawake _ hc.request, hc⟩)
  | resumed c' hc' hready =>
    have hne : c.txn ≠ c'.txn := by
      intro heq
      rw [heq] at hother
      exact hother _ rfl
    exact (hready.waits c).mpr (Or.inl ⟨hne, hc⟩)

/-- So do the pages that its transaction holds show what they showed. -/
theorem shows_of_waits (h : Passes upkeep l m o l' m' new) (hc : m.Waits c)
    (hother : ∀ outcome, o ≠ .resumed c.txn outcome) (hshows : m.db.pool.Shows page img)
    (hheld : m.db.holds page c.txn) : m'.db.pool.Shows page img := by
  obtain ⟨img', hreplay, hshows', -⟩ := h.effect.shows h.before.sound.wellFormed
    h.after.sound.wellFormed h.before.coherent (h.unended_of_waits hc) hshows hheld
  rw [h.operationsIn_of_waits hc hother] at hreplay
  obtain rfl := Option.some.inj hreplay
  exact hshows'

end Passes

end PagedHeap
