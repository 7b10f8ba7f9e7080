import PagedHeap.Proofs.WaitGraph.Search

/-!
# The wait-for graph stays without circles

Edges are replaced as a whole, and a replacement that closes a circle is taken back.  The search is
skipped when no edge is new; that is sound because the graph had no circle before.
-/

namespace PagedHeap.WaitGraph

open Relation

variable {g : WaitGraph} {t a b : TxnId} {ts : SortedSet TxnId}

def Acyclic (g : WaitGraph) : Prop :=
  ∀ t, ¬ TransGen g.Edge t t

@[simp] theorem out_empty (t : TxnId) : (∅ : WaitGraph).out t = ∅ := rfl

theorem out_clear (g : WaitGraph) (t a : TxnId) :
    (g.clear t).out a = if a = t then ∅ else g.out a := by
  rw [out, clear, SortedMap.get?_erase]
  by_cases h : a = t
  · simp [h]
  · rw [if_neg (Ne.symm h), if_neg h, out]

theorem out_replace (g : WaitGraph) (t : TxnId) (ts : SortedSet TxnId) (a : TxnId) :
    (g.replace t ts).out a = if a = t then ts else g.out a := by
  rw [replace]
  split
  case isTrue hempty =>
    rw [out_clear]
    split
    · ext u
      simp [SortedSet.isEmpty_iff.mp hempty u]
    · rfl
  case isFalse =>
    rw [out, SortedMap.get?_insert]
    by_cases h : a = t
    · simp [h]
    · rw [if_neg (Ne.symm h), if_neg h, out]

theorem edge_clear : (g.clear t).Edge a b ↔ a ≠ t ∧ g.Edge a b := by
  rw [Edge, out_clear, Edge]
  split <;> simp_all

theorem edge_replace : (g.replace t ts).Edge a b ↔ if a = t then b ∈ ts else g.Edge a b := by
  rw [Edge, out_replace, Edge]
  split <;> rfl

theorem edge_removeTxn : (g.removeTxn t).Edge a b ↔ a ≠ t ∧ b ≠ t ∧ g.Edge a b := by
  rw [Edge, removeTxn, out, SortedMap.get?_filterMap, SortedMap.get?_erase]
  by_cases ha : a = t
  · simp [ha]
  · rw [if_neg (Ne.symm ha), Edge, out]
    cases g.edges.get? a with
    | none => simp
    | some us =>
      simp only [Option.bind_some, Option.getD_some]
      split
      case isTrue hempty =>
        have hnot := SortedSet.isEmpty_iff.mp hempty b
        rw [SortedSet.mem_erase] at hnot
        simp only [Option.getD_none, SortedSet.not_mem_empty, false_iff]
        exact fun h => hnot ⟨Ne.symm h.2.1, h.2.2⟩
      case isFalse =>
        rw [Option.getD_some, SortedSet.mem_erase]
        exact ⟨fun h => ⟨ha, Ne.symm h.1, h.2⟩, fun h => ⟨Ne.symm h.2.1, h.2.2⟩⟩

/-! ## Circles -/

/-- A path of the new graph that is none of the old one passes through the changed transaction. -/
theorem transGen_replace (h : TransGen (g.replace t ts).Edge a b) :
    TransGen g.Edge a b ∨
      ReflTransGen (g.replace t ts).Edge a t ∧ TransGen (g.replace t ts).Edge t b := by
  induction h with
  | single hedge =>
    by_cases ha : a = t
    · subst ha
      exact Or.inr ⟨.refl, .single hedge⟩
    · rw [edge_replace, if_neg ha] at hedge
      exact Or.inl (.single hedge)
  | @tail c d hpath hedge ih =>
    rcases ih with hold | ⟨hto, hfrom⟩
    · by_cases hc : c = t
      · subst hc
        exact Or.inr ⟨hpath.to_reflTransGen, .single hedge⟩
      · have hedge' := hedge
        rw [edge_replace, if_neg hc] at hedge'
        exact Or.inl (.tail hold hedge')
    · exact Or.inr ⟨hto, .tail hfrom hedge⟩

/-- Edges of the changed transaction do not matter for who reaches it. -/
theorem reflTransGen_replace :
    ReflTransGen (g.replace t ts).Edge a t ↔ ReflTransGen g.Edge a t := by
  constructor
  · intro h
    induction h using ReflTransGen.head_induction_on with
    | refl => exact .refl
    | @head c d hedge _ ih =>
      by_cases hc : c = t
      · rw [hc]
      · rw [edge_replace, if_neg hc] at hedge
        exact .head hedge ih
  · intro h
    induction h using ReflTransGen.head_induction_on with
    | refl => exact .refl
    | @head c d hedge _ ih =>
      by_cases hc : c = t
      · rw [hc]
      · exact .head (edge_replace.mpr (by rwa [if_neg hc])) ih

/-- The new edges close a circle when one of them leads to a transaction that waits, directly or
through others, for the one whose edges they are. -/
theorem transGen_replace_self :
    TransGen (g.replace t ts).Edge t t ↔ ∃ h ∈ ts, ReflTransGen g.Edge h t := by
  rw [TransGen.head'_iff]
  refine exists_congr fun h => ?_
  rw [edge_replace, if_pos rfl, reflTransGen_replace]

theorem Acyclic.replace (hac : Acyclic g) (hopen : ¬ TransGen (g.replace t ts).Edge t t) :
    Acyclic (g.replace t ts) := by
  intro a hcircle
  rcases transGen_replace hcircle with hold | ⟨hto, hfrom⟩
  · exact hac a hold
  · exact hopen (hfrom.trans_left hto)

theorem Acyclic.of_edge_imp {g' : WaitGraph} (hac : Acyclic g)
    (h : ∀ a b, g'.Edge a b → g.Edge a b) : Acyclic g' :=
  fun a hcircle => hac a (TransGen.mono h _ _ hcircle)

theorem Acyclic.clear (hac : Acyclic g) (t : TxnId) : Acyclic (g.clear t) :=
  hac.of_edge_imp fun _ _ h => (edge_clear.mp h).2

theorem Acyclic.removeTxn (hac : Acyclic g) (t : TxnId) : Acyclic (g.removeTxn t) :=
  hac.of_edge_imp fun _ _ h => (edge_removeTxn.mp h).2.2

theorem acyclic_empty : Acyclic ∅ := by
  intro t hcircle
  obtain ⟨u, hedge, -⟩ := TransGen.head'_iff.mp hcircle
  simp [Edge] at hedge

/-- Without new edges there is nothing to search for. -/
theorem grows_of_closes (hac : Acyclic g) (hcircle : TransGen (g.replace t ts).Edge t t) :
    g.grows t ts = true := by
  obtain ⟨h, hmem, hpath⟩ := transGen_replace_self.mp hcircle
  cases hgrows : g.grows t ts with
  | true => rfl
  | false =>
    rw [grows] at hgrows
    cases hget : g.edges.get? t with
    | none =>
      rw [hget] at hgrows
      have hempty : ts.isEmpty = true := by simpa using hgrows
      exact absurd hmem (SortedSet.isEmpty_iff.mp hempty h)
    | some old =>
      rw [hget] at hgrows
      have hsubset : ts.subset old = true := by simpa using hgrows
      have hold : g.Edge t h := by
        rw [Edge, out, hget]
        exact SortedSet.subset_iff.mp hsubset h hmem
      exact absurd (TransGen.head' hold hpath) (hac t)

def waitSet (t : TxnId) (holders : List TxnId) : SortedSet TxnId :=
  SortedSet.ofList (holders.filter (· ≠ t))

theorem mem_waitSet {holders : List TxnId} : a ∈ waitSet t holders ↔ a ∈ holders ∧ a ≠ t := by
  simp [waitSet]

/-- One of the holders waits already, directly or through others, for the transaction. -/
def Closes (g : WaitGraph) (t : TxnId) (holders : List TxnId) : Prop :=
  ∃ h ∈ holders, h ≠ t ∧ ReflTransGen g.Edge h t

/-- No circle closes if the holders lie in a set that edges do not leave, and the transaction does
not. -/
theorem not_closes_of_enclosed {holders : List TxnId} (within : List TxnId)
    (henclosed : ∀ a ∈ within, ∀ b, g.Edge a b → b ∈ within) (hholders : ∀ h ∈ holders, h ∈ within)
    (ht : t ∉ within) : ¬ g.Closes t holders := by
  rintro ⟨h, hmem, -, hpath⟩
  have hall : ∀ a, ReflTransGen g.Edge h a → a ∈ within := by
    intro a hto
    induction hto with
    | refl => exact hholders h hmem
    | tail _ hedge ih => exact henclosed _ ih _ hedge
  exact ht (hall t hpath)

theorem transGen_replace_waitSet {holders : List TxnId} :
    TransGen (g.replace t (waitSet t holders)).Edge t t ↔ g.Closes t holders := by
  rw [transGen_replace_self]
  simp only [mem_waitSet, and_assoc, Closes]

theorem setWaits_of_closes (hac : Acyclic g) {holders : List TxnId} (h : g.Closes t holders) :
    g.setWaits t holders = (false, (g.replace t (waitSet t holders)).clear t) := by
  have hcircle := transGen_replace_waitSet.mpr h
  have hanswer : (g.grows t (waitSet t holders) &&
      (g.replace t (waitSet t holders)).reaches t t) = true := by
    rw [grows_of_closes hac hcircle, reaches_eq_true_iff.mpr hcircle]
    rfl
  exact if_pos hanswer

theorem setWaits_of_not_closes {holders : List TxnId} (h : ¬ g.Closes t holders) :
    g.setWaits t holders = (true, g.replace t (waitSet t holders)) := by
  have hopen : (g.replace t (waitSet t holders)).reaches t t = false := by
    rw [← Bool.not_eq_true, reaches_eq_true_iff, transGen_replace_waitSet]
    exact h
  have hanswer : ¬ (g.grows t (waitSet t holders) &&
      (g.replace t (waitSet t holders)).reaches t t) = true := by
    rw [hopen, Bool.and_false]
    exact Bool.false_ne_true
  exact if_neg hanswer

end PagedHeap.WaitGraph
