import PagedHeap.Proofs.WaitGraph.Removal

/-!
# Wait-for graphs over time

Whatever a graph has been through, it has no circle and lists nobody without edges.  New edges are
therefore refused exactly when they would close a circle with the edges of the others, and to search
only when edges are added loses nothing.
-/

namespace PagedHeap.WaitGraph

open Relation

/-- What can be done to a wait-for graph. -/
inductive Change where
  | setWaits (t : TxnId) (holders : List TxnId)
  | clear (t : TxnId)
  | removeTxn (t : TxnId)

def Change.on : Change → WaitGraph → WaitGraph
  | setWaits t holders, g => (g.setWaits t holders).2
  | clear t, g => g.clear t
  | removeTxn t, g => g.removeTxn t

def after (changes : List Change) : WaitGraph :=
  changes.foldl (fun g change => change.on g) ∅

/-- Sets edges as `setWaits` does, but searches for a circle whatever the edges were before. -/
def setWaitsSearching (g : WaitGraph) (t : TxnId) (holders : List TxnId) : Bool × WaitGraph :=
  let waiting := g.replace t (waitSet t holders)
  if waiting.reaches t t then (false, waiting.clear t) else (true, waiting)

/-- A path of at least one edge that does not use the edges of `t`. -/
def PathAround (g : WaitGraph) (t : TxnId) : TxnId → TxnId → Prop :=
  TransGen fun a b => a ≠ t ∧ g.Edge a b

structure Tidy (g : WaitGraph) : Prop where
  acyclic : Acyclic g
  nonempty : ∀ t ts, g.edges.get? t = some ts → ∃ u, u ∈ ts

/-- New edges of `t` are refused exactly when they close a circle, and nobody else's edges change. -/
structure Guards (g : WaitGraph) (t : TxnId) (holders : List TxnId) : Prop where
  refuses_iff : (g.setWaits t holders).1 = false ↔ ∃ h ∈ holders, h ≠ t ∧ g.PathAround t h t
  refused : (g.setWaits t holders).1 = false → (g.setWaits t holders).2.edges.get? t = none
  accepted : (g.setWaits t holders).1 = true →
    ∀ a, (g.setWaits t holders).2.Edge t a ↔ a ∈ holders ∧ a ≠ t
  others : ∀ a, a ≠ t → (g.setWaits t holders).2.edges.get? a = g.edges.get? a
  search_idle : g.setWaits t holders = g.setWaitsSearching t holders

variable {g : WaitGraph} {t : TxnId}

/-! ## One call -/

/-- A path to `t` from elsewhere need not leave `t` on its way. -/
theorem pathAround_iff {h : TxnId} (hne : h ≠ t) :
    g.PathAround t h t ↔ ReflTransGen g.Edge h t := by
  constructor
  · exact fun hpath => (TransGen.mono (fun _ _ hedge => hedge.2) _ _ hpath).to_reflTransGen
  · intro hpath
    have go : ∀ a, ReflTransGen g.Edge a t → a ≠ t → g.PathAround t a t := by
      intro a hto
      induction hto using ReflTransGen.head_induction_on with
      | refl => exact fun hself => absurd rfl hself
      | @head a b hedge _ ih =>
        intro ha
        by_cases hb : b = t
        · exact .single ⟨ha, hb ▸ hedge⟩
        · exact .head ⟨ha, hedge⟩ (ih hb)
    exact go h hpath hne

theorem closes_iff {holders : List TxnId} :
    g.Closes t holders ↔ ∃ h ∈ holders, h ≠ t ∧ g.PathAround t h t :=
  exists_congr fun _ => and_congr_right fun _ => and_congr_right fun hne =>
    (pathAround_iff hne).symm

theorem setWaitsSearching_eq (g : WaitGraph) (t : TxnId) (holders : List TxnId)
    [Decidable (g.Closes t holders)] :
    g.setWaitsSearching t holders =
      if g.Closes t holders then (false, (g.replace t (waitSet t holders)).clear t)
      else (true, g.replace t (waitSet t holders)) := by
  simp only [setWaitsSearching, reaches_eq_true_iff, transGen_replace_waitSet]

theorem get?_clear_replace_of_ne (g : WaitGraph) (ts : SortedSet TxnId) {a : TxnId} (hne : a ≠ t) :
    ((g.replace t ts).clear t).edges.get? a = g.edges.get? a := by
  rw [get?_clear, if_neg hne.symm, get?_replace, if_neg hne.symm]

theorem Acyclic.guards (hac : Acyclic g) (t : TxnId) (holders : List TxnId) :
    g.Guards t holders := by
  classical
  by_cases hcloses : g.Closes t holders
  · have hset := setWaits_of_closes hac hcloses
    exact {
      refuses_iff := by simp only [hset, true_iff]; exact closes_iff.mp hcloses
      refused := fun _ => by rw [hset, get?_clear, if_pos rfl]
      accepted := fun haccept => by rw [hset] at haccept; exact Bool.noConfusion haccept
      others := fun a hne => by rw [hset]; exact g.get?_clear_replace_of_ne _ hne
      search_idle := by rw [hset, setWaitsSearching_eq, if_pos hcloses] }
  · have hset := setWaits_of_not_closes hcloses
    exact {
      refuses_iff := by simp only [hset, Bool.true_eq_false, ← closes_iff, hcloses]
      refused := fun hrefuse => by rw [hset] at hrefuse; exact Bool.noConfusion hrefuse
      accepted := fun _ a => by rw [hset, edge_replace, if_pos rfl, mem_waitSet]
      others := fun a hne => by rw [hset, get?_replace, if_neg hne.symm]
      search_idle := by rw [hset, setWaitsSearching_eq, if_neg hcloses] }

/-! ## One change keeps the graph tidy -/

namespace Tidy

theorem empty : Tidy ∅ where
  acyclic := acyclic_empty
  nonempty t ts hget := by
    rw [show (∅ : WaitGraph).edges.get? t = none from rfl] at hget
    cases hget

theorem clear (h : Tidy g) (t : TxnId) : Tidy (g.clear t) where
  acyclic := h.acyclic.clear t
  nonempty a ts hget := by
    rw [get?_clear] at hget
    split at hget
    · cases hget
    · exact h.nonempty a ts hget

theorem exists_mem_of_not_isEmpty {ts : SortedSet TxnId} (h : ¬ ts.isEmpty = true) :
    ∃ u, u ∈ ts :=
  Classical.not_forall_not.mp (mt SortedSet.isEmpty_iff.mpr h)

theorem nonempty_replace (h : Tidy g) (t : TxnId) (ts : SortedSet TxnId) (a : TxnId)
    (us : SortedSet TxnId) (hget : (g.replace t ts).edges.get? a = some us) : ∃ u, u ∈ us := by
  rw [get?_replace] at hget
  split at hget
  · split at hget
    · cases hget
    · rename_i hempty
      exact Option.some.inj hget ▸ exists_mem_of_not_isEmpty hempty
  · exact h.nonempty a us hget

theorem setWaits (h : Tidy g) (t : TxnId) (holders : List TxnId) :
    Tidy (g.setWaits t holders).2 := by
  by_cases hcloses : g.Closes t holders
  · -- the edges that close the circle are gone again, and with them the whole change
    rw [setWaits_of_closes h.acyclic hcloses]
    refine ⟨h.acyclic.of_edge_imp fun a b hedge => ?_, fun a us hget => ?_⟩
    · obtain ⟨hne, hedge⟩ := edge_clear.mp hedge
      rwa [edge_replace, if_neg hne] at hedge
    · rw [get?_clear] at hget
      split at hget
      · cases hget
      · exact h.nonempty_replace t _ a us hget
  · rw [setWaits_of_not_closes hcloses]
    exact ⟨h.acyclic.replace (mt transGen_replace_waitSet.mp hcloses), h.nonempty_replace t _⟩

theorem removeTxn (h : Tidy g) (t : TxnId) : Tidy (g.removeTxn t) where
  acyclic := h.acyclic.removeTxn t
  nonempty a us hget := by
    rw [get?_removeTxn] at hget
    split at hget
    · cases hget
    · obtain ⟨ts, -, hrest⟩ := Option.bind_eq_some_iff.mp hget
      split at hrest
      · cases hrest
      · rename_i hempty
        exact Option.some.inj hrest ▸ exists_mem_of_not_isEmpty hempty

theorem on (h : Tidy g) (change : Change) : Tidy (change.on g) := by
  cases change with
  | setWaits t holders => exact h.setWaits t holders
  | clear t => exact h.clear t
  | removeTxn t => exact h.removeTxn t

end Tidy

theorem tidy_after (changes : List Change) : Tidy (after changes) := by
  have go : ∀ (changes : List Change) (g : WaitGraph), Tidy g →
      Tidy (changes.foldl (fun g change => change.on g) g) := by
    intro changes
    induction changes with
    | nil => exact fun g h => h
    | cons change rest ih => exact fun g h => ih _ (h.on change)
  exact go changes ∅ Tidy.empty

/-- Whatever was done to the graph, it has no circle and no empty entry, and the next edges are
refused exactly when they would close a circle. -/
theorem tidy_and_guards_after (changes : List Change) :
    Tidy (after changes) ∧ ∀ t holders, (after changes).Guards t holders :=
  ⟨tidy_after changes, (tidy_after changes).acyclic.guards⟩

end PagedHeap.WaitGraph
