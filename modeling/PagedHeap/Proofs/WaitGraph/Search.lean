import PagedHeap.WaitGraph
import Mathlib.Logic.Relation

/-!
# The search finds exactly the paths

Everything reachable from the visited transactions is visited or reachable from the stack: while
the search runs this stays true, and when the stack is empty it says that the goal is out of reach.
-/

namespace PagedHeap

open Relation

namespace Listing

variable {l : Listing} {goal t u : TxnId} {visited visited' stack stack' : List TxnId}

def Edge (l : Listing) (a b : TxnId) : Prop :=
  ∃ ts, l.next? a = some ts ∧ b ∈ ts

/-- Where the edges of a transaction lead, listed or not. -/
def targets (l : Listing) (t : TxnId) : List TxnId :=
  (l.next? t).getD []

theorem mem_targets : u ∈ l.targets t ↔ l.Edge t u := by
  rw [targets, Edge]
  cases l.next? t with
  | none => simp
  | some ts => simp

/-! ## One step of the search -/

theorem search_cons_of_mem (hne : t ≠ goal) (hvisited : t ∈ visited) :
    l.search goal visited (t :: stack) = l.search goal visited stack := by
  rw [search, if_neg hne, dif_pos hvisited]

theorem search_cons_of_notMem (hne : t ≠ goal) (hnew : t ∉ visited) :
    l.search goal visited (t :: stack) =
      l.search goal (t :: visited) ((l.targets t).filter (· ∉ t :: visited) ++ stack) := by
  rw [search, if_neg hne, dif_neg hnew, targets]
  split
  case h_1 hnext =>
    rw [hnext]
    rfl
  case h_2 ts hnext =>
    rw [hnext]
    rfl

/-- When the top of the stack is visited, nothing gets lost that was visited or on the stack. -/
theorem seen_or_left (h : u ∈ visited ∨ u ∈ t :: stack) (ht : t ∈ visited')
    (hvisited : visited ⊆ visited') (hstack : stack ⊆ stack') : u ∈ visited' ∨ u ∈ stack' := by
  rcases h with hu | hu
  · exact Or.inl (hvisited hu)
  · rcases List.mem_cons.mp hu with rfl | hu
    · exact Or.inl ht
    · exact Or.inr (hstack hu)

/-- Nothing leads out of the visited transactions but to the stack. -/
structure Enclosed (l : Listing) (goal : TxnId) (visited stack : List TxnId) : Prop where
  goal_notMem : goal ∉ visited
  closed : ∀ a ∈ visited, ∀ b, l.Edge a b → b ∈ visited ∨ b ∈ stack

namespace Enclosed

theorem mono (h : Enclosed l goal visited stack) (hstack : stack ⊆ stack') :
    Enclosed l goal visited stack' where
  goal_notMem := h.goal_notMem
  closed a ha b hedge := (h.closed a ha b hedge).imp_right fun hb => hstack hb

theorem pop (h : Enclosed l goal visited (t :: stack)) (hvisited : t ∈ visited) :
    Enclosed l goal visited stack where
  goal_notMem := h.goal_notMem
  closed a ha b hedge :=
    seen_or_left (h.closed a ha b hedge) hvisited (List.Subset.refl _) (List.Subset.refl _)

theorem visit (h : Enclosed l goal visited (t :: stack)) (hne : t ≠ goal) :
    Enclosed l goal (t :: visited) ((l.targets t).filter (· ∉ t :: visited) ++ stack) where
  goal_notMem hmem := by
    rcases List.mem_cons.mp hmem with heq | hmem
    · exact hne heq.symm
    · exact h.goal_notMem hmem
  closed a ha b hedge := by
    rcases List.mem_cons.mp ha with rfl | ha
    · by_cases hseen : b ∈ a :: visited
      · exact Or.inl hseen
      · refine Or.inr (List.mem_append_left _ (List.mem_filter.mpr ⟨mem_targets.mpr hedge, ?_⟩))
        exact decide_eq_true hseen
    · exact seen_or_left (h.closed a ha b hedge) List.mem_cons_self (List.subset_cons_self _ _)
        (List.subset_append_right _ _)

/-- With nothing left on the stack the goal is out of reach. -/
theorem not_path (h : Enclosed l goal visited []) (ht : t ∈ visited) :
    ¬ ReflTransGen l.Edge t goal := by
  intro hpath
  have hstays : ∀ u, ReflTransGen l.Edge t u → u ∈ visited := by
    intro u hu
    induction hu with
    | refl => exact ht
    | tail _ hedge ih => exact (h.closed _ ih _ hedge).resolve_right List.not_mem_nil
  exact h.goal_notMem (hstays goal hpath)

end Enclosed

/-! ## The search as a whole -/

theorem exists_of_search (h : l.search goal visited stack = true) :
    ∃ t ∈ stack, ReflTransGen l.Edge t goal := by
  induction visited, stack using search.induct l goal with
  | case1 visited => simp [search] at h
  | case2 visited stack => exact ⟨goal, List.mem_cons_self, .refl⟩
  | case3 visited t stack hgoal hvisited ih =>
    rw [search_cons_of_mem hgoal hvisited] at h
    obtain ⟨u, hu, hpath⟩ := ih h
    exact ⟨u, List.mem_cons_of_mem _ hu, hpath⟩
  | case4 visited t stack hgoal hnew hnext ih =>
    rw [search_cons_of_notMem hgoal hnew, targets, hnext] at h
    obtain ⟨u, hu, hpath⟩ := ih h
    exact ⟨u, List.mem_cons_of_mem _ hu, hpath⟩
  | case5 visited t stack hgoal hnew ts hnext ih =>
    rw [search_cons_of_notMem hgoal hnew, targets, hnext] at h
    obtain ⟨u, hu, hpath⟩ := ih h
    rcases List.mem_append.mp hu with hu | hu
    · have hedge : l.Edge t u := ⟨ts, hnext, (List.mem_filter.mp hu).1⟩
      exact ⟨t, List.mem_cons_self, .head hedge hpath⟩
    · exact ⟨u, List.mem_cons_of_mem _ hu, hpath⟩

theorem not_path_of_search (hclosed : Enclosed l goal visited stack)
    (h : l.search goal visited stack = false) (hu : u ∈ visited ∨ u ∈ stack) :
    ¬ ReflTransGen l.Edge u goal := by
  induction visited, stack using search.induct l goal with
  | case1 visited => exact hclosed.not_path (hu.resolve_right List.not_mem_nil)
  | case2 visited stack => simp [search] at h
  | case3 visited t stack hgoal hvisited ih =>
    rw [search_cons_of_mem hgoal hvisited] at h
    exact ih (hclosed.pop hvisited) h
      (seen_or_left hu hvisited (List.Subset.refl _) (List.Subset.refl _))
  | case4 visited t stack hgoal hnew hnext ih =>
    have hclosed' := hclosed.visit hgoal
    rw [search_cons_of_notMem hgoal hnew, targets, hnext] at h
    rw [targets, hnext] at hclosed'
    exact ih hclosed' h
      (seen_or_left hu List.mem_cons_self (List.subset_cons_self _ _) (List.Subset.refl _))
  | case5 visited t stack hgoal hnew ts hnext ih =>
    have hclosed' := hclosed.visit hgoal
    rw [search_cons_of_notMem hgoal hnew, targets, hnext] at h
    rw [targets, hnext] at hclosed'
    exact ih hclosed' h
      (seen_or_left hu List.mem_cons_self (List.subset_cons_self _ _)
        (List.subset_append_right _ _))

theorem search_nil_iff :
    l.search goal [] stack = true ↔ ∃ t ∈ stack, ReflTransGen l.Edge t goal := by
  refine ⟨exists_of_search, fun ⟨t, ht, hpath⟩ => ?_⟩
  cases hsearch : l.search goal [] stack with
  | true => rfl
  | false => exact absurd hpath (not_path_of_search ⟨by simp, by simp⟩ hsearch (Or.inr ht))

theorem reaches_eq_true_iff {start : TxnId} :
    l.reaches start goal = true ↔ TransGen l.Edge start goal := by
  rw [reaches, TransGen.head'_iff]
  cases hnext : l.next? start with
  | none => simp [Edge, hnext]
  | some ts => simp [search_nil_iff, Edge, hnext]

end Listing

namespace WaitGraph

def Edge (g : WaitGraph) (a b : TxnId) : Prop :=
  b ∈ g.out a

theorem next?_listing (g : WaitGraph) (t : TxnId) :
    g.listing.next? t = (g.edges.get? t).map SortedSet.toList := by
  rw [listing, Listing.next?, SortedMap.get?]
  induction g.edges.entries with
  | nil => rfl
  | cons e rest ih =>
    obtain ⟨a, ts⟩ := e
    rw [List.map_cons, List.lookup_cons, Entries.lookup]
    by_cases h : a = t
    · simp [h]
    · have hne : (t == a) = false := beq_false_of_ne (Ne.symm h)
      rw [hne, if_neg (rank_ne.mpr h)]
      exact ih

theorem edge_listing {g : WaitGraph} {a b : TxnId} : g.listing.Edge a b ↔ g.Edge a b := by
  rw [Listing.Edge, next?_listing, Edge, out]
  cases g.edges.get? a with
  | none => simp
  | some ts => simp

theorem reaches_eq_true_iff {g : WaitGraph} {a b : TxnId} :
    g.reaches a b = true ↔ TransGen g.Edge a b := by
  have h : g.listing.Edge = g.Edge := by
    funext a b
    exact propext edge_listing
  rw [reaches, Listing.reaches_eq_true_iff, h]

end WaitGraph

end PagedHeap
