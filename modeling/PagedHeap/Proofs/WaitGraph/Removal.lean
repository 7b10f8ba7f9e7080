import PagedHeap.Proofs.WaitGraph.Acyclic

/-!
# Removing a transaction that waits for nobody

Edges to such a transaction are dead ends: no path passes through it, so the graph may lose it
before or after anybody else's edges change.
-/

namespace PagedHeap.WaitGraph

open Relation

variable {g : WaitGraph} {t u a : TxnId} {ts : SortedSet TxnId}

@[ext] theorem ext_get? {g g' : WaitGraph} (h : ∀ a, g.edges.get? a = g'.edges.get? a) :
    g = g' := by
  obtain ⟨edges⟩ := g
  obtain ⟨edges'⟩ := g'
  rw [WaitGraph.mk.injEq]
  exact SortedMap.ext_get? h

theorem get?_clear (g : WaitGraph) (t a : TxnId) :
    (g.clear t).edges.get? a = if t = a then none else g.edges.get? a := by
  rw [clear, SortedMap.get?_erase]

theorem get?_replace (g : WaitGraph) (t : TxnId) (ts : SortedSet TxnId) (a : TxnId) :
    (g.replace t ts).edges.get? a =
      if t = a then (if ts.isEmpty then none else some ts) else g.edges.get? a := by
  rw [replace]
  split
  · rw [get?_clear]
  · rw [SortedMap.get?_insert]

theorem get?_removeTxn (g : WaitGraph) (t a : TxnId) :
    (g.removeTxn t).edges.get? a = if t = a then none else
      (g.edges.get? a).bind fun ts => if (ts.erase t).isEmpty then none else some (ts.erase t) := by
  rw [removeTxn, SortedMap.get?_filterMap, SortedMap.get?_erase]
  split
  · rfl
  · rfl

theorem removeTxn_clear (g : WaitGraph) (t u : TxnId) :
    (g.removeTxn t).clear u = (g.clear u).removeTxn t := by
  ext a : 1
  rw [get?_clear, get?_removeTxn, get?_removeTxn, get?_clear]
  by_cases hu : u = a
  · simp [hu]
  · simp [hu]

/-- Edges that do not lead to the removed transaction may be set before or after. -/
theorem removeTxn_replace (hne : u ≠ t) (hts : t ∉ ts) :
    (g.removeTxn t).replace u ts = (g.replace u ts).removeTxn t := by
  have herase : ts.erase t = ts := by
    ext a
    rw [SortedSet.mem_erase]
    exact ⟨And.right, fun ha => ⟨fun heq => hts (heq ▸ ha), ha⟩⟩
  ext a : 1
  rw [get?_replace, get?_removeTxn, get?_removeTxn, get?_replace]
  by_cases hu : u = a
  · subst hu
    rw [if_pos rfl, if_pos rfl, if_neg (Ne.symm hne)]
    by_cases hempty : ts.isEmpty
    · simp [hempty]
    · simp [hempty, herase]
  · rw [if_neg hu, if_neg hu]

/-- Whoever waits for nobody lies on no path to another transaction. -/
theorem reflTransGen_removeTxn (hidle : ∀ b, ¬ g.Edge t b) (hne : u ≠ t) (ha : a ≠ t) :
    ReflTransGen (g.removeTxn t).Edge a u ↔ ReflTransGen g.Edge a u := by
  constructor
  · exact fun h => ReflTransGen.mono (fun _ _ hedge => (edge_removeTxn.mp hedge).2.2) _ _ h
  · intro h
    induction h using ReflTransGen.head_induction_on with
    | refl => exact .refl
    | @head b c hedge hpath ih =>
      have hc : c ≠ t := by
        rintro rfl
        obtain heq | ⟨d, hout, -⟩ := ReflTransGen.cases_head hpath
        · exact hne heq.symm
        · exact hidle d hout
      exact .head (edge_removeTxn.mpr ⟨ha, hc, hedge⟩) (ih hc)

theorem closes_removeTxn {holders : List TxnId} (hidle : ∀ b, ¬ g.Edge t b) (hne : u ≠ t)
    (hholders : t ∉ holders) : (g.removeTxn t).Closes u holders ↔ g.Closes u holders := by
  refine exists_congr fun h => and_congr_right fun hmem => and_congr_right fun _ => ?_
  exact reflTransGen_removeTxn hidle hne fun heq => hholders (heq ▸ hmem)

end PagedHeap.WaitGraph
