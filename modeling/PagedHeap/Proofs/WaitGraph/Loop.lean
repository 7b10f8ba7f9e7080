import Mathlib.Algebra.BigOperators.Group.List.Basic
import Mathlib.Algebra.Ring.Nat
import PagedHeap.Proofs.WaitGraph.Search

/-!
# The search loop under any order of the edges

A turn of the loop takes a transaction off the stack.  If it is new, then those it waits for go onto
the stack in its place, in an order that is left open and may be another one each time.  Each turn
uses up an entry of the stack, and an edge is pushed once at most after the start, so the loop ends;
and however it went, the answer tells whether there is a path.
-/

namespace PagedHeap.WaitGraph

open Relation

/-- What the loop has in hand between two turns. -/
structure Probe where
  visited : List TxnId
  stack : List TxnId

/-- The answer, if the loop has come to its end. -/
def Probe.answer? (goal : TxnId) (p : Probe) : Option Bool :=
  match p.stack with
  | [] => some false
  | t :: _ => if t = goal then some true else none

/-- One turn of the loop. -/
inductive Turn (g : WaitGraph) (goal : TxnId) : Probe → Probe → Prop
  | skip {t : TxnId} {visited stack : List TxnId} (hne : t ≠ goal) (hvisited : t ∈ visited) :
    Turn g goal ⟨visited, t :: stack⟩ ⟨visited, stack⟩
  | visit {t : TxnId} {visited stack pushed : List TxnId} (hne : t ≠ goal) (hnew : t ∉ visited)
    (hpushed : pushed.Perm ((g.waitsOf t).filter (· ∉ t :: visited))) :
    Turn g goal ⟨visited, t :: stack⟩ ⟨t :: visited, pushed ++ stack⟩

/-- The loop starts with the edges of `start` on the stack, in any order. -/
def Opens (g : WaitGraph) (start : TxnId) (p : Probe) : Prop :=
  p.visited = [] ∧ p.stack.Perm (g.waitsOf start)

/-- The listing has the edges of the graph, those of each transaction in any order. -/
def ListedBy (g : WaitGraph) (l : Listing) : Prop :=
  ∀ t, (l.targets t).Perm (g.waitsOf t)

/-- The search from `start` ends whatever the order of the edges, and finds the paths to `goal`. -/
structure FindsPaths (g : WaitGraph) (start goal : TxnId) : Prop where
  /-- No run of the loop has more turns than there are edges, those of `start` counted twice. -/
  ends : ∀ p, g.Opens start p → ∀ probes, List.IsChain (g.Turn goal) (p :: probes) →
    probes.length ≤ g.edgeCount + (g.out start).size
  /-- It stops only with an answer. -/
  goes_on : ∀ p : Probe, p.answer? goal = none → ∃ q, g.Turn goal p q
  answer_iff : ∀ p q answer, g.Opens start p → ReflTransGen (g.Turn goal) p q →
    q.answer? goal = some answer → (answer = true ↔ TransGen g.Edge start goal)
  /-- The program's search of a listing is such a run. -/
  runs : ∀ l : Listing, g.ListedBy l → ∃ p q, g.Opens start p ∧ ReflTransGen (g.Turn goal) p q ∧
    q.answer? goal = some (l.reaches start goal)
  listed_iff : ∀ l : Listing, g.ListedBy l →
    (l.reaches start goal = true ↔ TransGen g.Edge start goal)
  reaches_iff : g.reaches start goal = true ↔ TransGen g.Edge start goal

variable {g : WaitGraph} {start goal t : TxnId} {visited stack stack' : List TxnId} {p q : Probe}

/-! ## The loop ends -/

/-- The edges of the transactions that are not visited yet. -/
def edgesLeft (g : WaitGraph) (visited : List TxnId) : Nat :=
  ((g.edges.keys.filter (· ∉ visited)).map fun t => (g.out t).size).sum

def Probe.weight (g : WaitGraph) (p : Probe) : Nat :=
  p.stack.length + g.edgesLeft p.visited

theorem size_out_of_not_key (hkey : t ∉ g.edges.keys) : (g.out t).size = 0 := by
  have hnone : g.edges.get? t = none := by
    rwa [SortedMap.mem_keys, SortedMap.contains, Option.not_isSome_iff_eq_none] at hkey
  rw [out, hnone]
  rfl

/-- A visit takes the edges of the visited transaction away from those left. -/
theorem edgesLeft_cons (hnew : t ∉ visited) :
    (g.out t).size + g.edgesLeft (t :: visited) = g.edgesLeft visited := by
  have hnodup : (g.edges.keys.filter (· ∉ visited)).Nodup := g.edges.keys_nodup.filter _
  have herase : g.edges.keys.filter (· ∉ t :: visited) =
      (g.edges.keys.filter (· ∉ visited)).erase t := by
    rw [hnodup.erase_eq_filter, List.filter_filter]
    apply List.filter_congr
    intro u _
    simp [bne, beq_eq_decide]
  rw [edgesLeft, herase]
  by_cases hmem : t ∈ g.edges.keys.filter (· ∉ visited)
  · exact List.sum_map_erase (fun u => (g.out u).size) hmem
  · have hkey : t ∉ g.edges.keys := fun hkey =>
      hmem (List.mem_filter.mpr ⟨hkey, decide_eq_true hnew⟩)
    rw [List.erase_of_not_mem hmem, size_out_of_not_key hkey]
    exact Nat.zero_add _

theorem edgesLeft_nil (g : WaitGraph) : g.edgesLeft [] = g.edgeCount := by
  have hall : g.edges.keys.filter (· ∉ ([] : List TxnId)) = g.edges.keys := by simp
  have hout : ∀ e ∈ g.edges.entries, (g.out e.1).size = e.2.size := by
    intro e he
    rw [out, SortedMap.get?_eq_some.mpr he, Option.getD_some]
  rw [edgesLeft, hall, edgeCount, SortedMap.keys, SortedMap.values, List.map_map, List.foldr_map]
  calc
    _ = (g.edges.entries.map fun e => e.2.size).sum := congrArg _ (List.map_congr_left hout)
    _ = _ := by rw [List.sum_eq_foldr, List.foldr_map]

theorem Turn.weight_lt (h : g.Turn goal p q) : q.weight g < p.weight g := by
  cases h with
  | skip =>
    simp only [Probe.weight, List.length_cons]
    omega
  | @visit t visited stack pushed _ hnew hpushed =>
    have hpushed_le : pushed.length ≤ (g.out t).size := by
      rw [hpushed.length_eq, ← SortedSet.length_toList]
      exact List.length_filter_le _ _
    have hleft := g.edgesLeft_cons hnew
    simp only [Probe.weight, List.length_append, List.length_cons]
    omega

theorem length_le_weight {probes : List Probe} (h : List.IsChain (g.Turn goal) (p :: probes)) :
    probes.length ≤ p.weight g := by
  induction probes generalizing p with
  | nil => exact Nat.zero_le _
  | cons q probes ih =>
    obtain ⟨hturn, hrest⟩ := List.isChain_cons_cons.mp h
    exact Nat.lt_of_le_of_lt (ih hrest) hturn.weight_lt

theorem Opens.weight_eq (h : g.Opens start p) :
    p.weight g = g.edgeCount + (g.out start).size := by
  obtain ⟨hvisited, hstack⟩ := h
  rw [Probe.weight, hvisited, edgesLeft_nil, hstack.length_eq, waitsOf, SortedSet.length_toList]
  exact Nat.add_comm _ _

theorem exists_turn (h : p.answer? goal = none) : ∃ q, g.Turn goal p q := by
  obtain ⟨visited, _ | ⟨t, stack⟩⟩ := p
  · cases h
  · have hne : t ≠ goal := by
      rintro rfl
      simp [Probe.answer?] at h
    by_cases hvisited : t ∈ visited
    · exact ⟨_, .skip hne hvisited⟩
    · exact ⟨_, .visit hne hvisited (List.Perm.refl _)⟩

/-! ## The answer -/

theorem targets_listing (g : WaitGraph) (t : TxnId) : g.listing.targets t = g.waitsOf t := by
  rw [Listing.targets, next?_listing, waitsOf, out]
  cases g.edges.get? t <;> rfl

/-- What is known while the loop runs: only transactions that can be reached are on the stack, and
nothing leads out of the visited ones but to the stack. -/
structure Explores (g : WaitGraph) (start goal : TxnId) (p : Probe) : Prop where
  reached : ∀ t ∈ p.stack, TransGen g.Edge start t
  begun : ∀ t, g.Edge start t → t ∈ p.visited ∨ t ∈ p.stack
  enclosed : g.listing.Enclosed goal p.visited p.stack

theorem Opens.explores (h : g.Opens start p) : g.Explores start goal p := by
  obtain ⟨hvisited, hstack⟩ := h
  have hmem : ∀ t, t ∈ p.stack ↔ g.Edge start t := fun t =>
    hstack.mem_iff.trans SortedSet.mem_toList
  exact {
    reached := fun t ht => .single ((hmem t).mp ht)
    begun := fun t hedge => Or.inr ((hmem t).mpr hedge)
    enclosed := by
      rw [hvisited]
      exact ⟨List.not_mem_nil, fun a ha => absurd ha List.not_mem_nil⟩ }

namespace Explores

theorem turn (h : g.Explores start goal p) (hturn : g.Turn goal p q) :
    g.Explores start goal q := by
  cases hturn with
  | skip _ hvisited =>
    exact {
      reached := fun u hu => h.reached u (List.mem_cons_of_mem _ hu)
      begun := fun u hedge => Listing.seen_or_left (h.begun u hedge) hvisited
        (List.Subset.refl _) (List.Subset.refl _)
      enclosed := h.enclosed.pop hvisited }
  | @visit t visited stack pushed hne _ hpushed =>
    have hout : ∀ u ∈ pushed, g.Edge t u := fun u hu =>
      SortedSet.mem_toList.mp (List.mem_filter.mp (hpushed.mem_iff.mp hu)).1
    exact {
      reached := fun u hu => by
        rcases List.mem_append.mp hu with hu | hu
        · exact .tail (h.reached t List.mem_cons_self) (hout u hu)
        · exact h.reached u (List.mem_cons_of_mem _ hu)
      begun := fun u hedge => Listing.seen_or_left (h.begun u hedge) List.mem_cons_self
        (List.subset_cons_self _ _) (List.subset_append_right _ _)
      enclosed := by
        have hvisit := h.enclosed.visit hne
        rw [targets_listing] at hvisit
        exact hvisit.mono (hpushed.symm.append_right stack).subset }

theorem run (h : g.Explores start goal p) (hrun : ReflTransGen (g.Turn goal) p q) :
    g.Explores start goal q := by
  induction hrun with
  | refl => exact h
  | tail _ hturn ih => exact ih.turn hturn

theorem answer_iff (h : g.Explores start goal q) {answer : Bool}
    (hanswer : q.answer? goal = some answer) :
    answer = true ↔ TransGen g.Edge start goal := by
  obtain ⟨visited, _ | ⟨t, stack⟩⟩ := q
  · -- the stack is empty, so what `start` leads to is visited, and the goal is not
    obtain rfl : false = answer := Option.some.inj hanswer
    have hedge : g.listing.Edge = g.Edge := by
      funext a b
      exact propext edge_listing
    simp only [Bool.false_eq_true, false_iff]
    intro hpath
    obtain ⟨u, hfirst, hrest⟩ := TransGen.head'_iff.mp hpath
    have hu : u ∈ visited := (h.begun u hfirst).resolve_right List.not_mem_nil
    exact h.enclosed.not_path hu (hedge ▸ hrest)
  · by_cases ht : t = goal
    · have htrue : answer = true := by simpa [Probe.answer?, ht, eq_comm] using hanswer
      exact ⟨fun _ => ht ▸ h.reached t List.mem_cons_self, fun _ => htrue⟩
    · simp [Probe.answer?, ht] at hanswer

end Explores

/-! ## The program's search is a run of the loop -/

/-- Where the search of a listing stands, the loop can go on to the answer of the search. -/
theorem exists_run_search {l : Listing} (hlisted : g.ListedBy l) (p : Probe) :
    ∃ q, ReflTransGen (g.Turn goal) p q ∧
      q.answer? goal = some (l.search goal p.visited p.stack) := by
  induction hn : p.weight g using Nat.strongRecOn generalizing p with
  | ind n ih =>
    obtain ⟨visited, _ | ⟨t, stack⟩⟩ := p
    · exact ⟨_, .refl, by simp [Probe.answer?, Listing.search]⟩
    by_cases hgoal : t = goal
    · exact ⟨_, .refl, by simp [Probe.answer?, Listing.search, hgoal]⟩
    by_cases hvisited : t ∈ visited
    · have hturn : g.Turn goal ⟨visited, t :: stack⟩ ⟨visited, stack⟩ := .skip hgoal hvisited
      obtain ⟨q, hrun, hanswer⟩ := ih _ (hn ▸ hturn.weight_lt) _ rfl
      exact ⟨q, .head hturn hrun, hanswer.trans
        (congrArg some (Listing.search_cons_of_mem hgoal hvisited).symm)⟩
    · have hturn : g.Turn goal ⟨visited, t :: stack⟩
          ⟨t :: visited, (l.targets t).filter (· ∉ t :: visited) ++ stack⟩ :=
        .visit hgoal hvisited ((hlisted t).filter _)
      obtain ⟨q, hrun, hanswer⟩ := ih _ (hn ▸ hturn.weight_lt) _ rfl
      exact ⟨q, .head hturn hrun, hanswer.trans
        (congrArg some (Listing.search_cons_of_notMem hgoal hvisited).symm)⟩

theorem reaches_eq_search (l : Listing) (start goal : TxnId) :
    l.reaches start goal = l.search goal [] (l.targets start) := by
  rw [Listing.reaches, Listing.targets]
  cases l.next? start with
  | none => simp [Listing.search]
  | some ts => rfl

theorem listedBy_listing (g : WaitGraph) : g.ListedBy g.listing := fun t => by
  rw [targets_listing]

theorem exists_run_reaches {l : Listing} (hlisted : g.ListedBy l) (start goal : TxnId) :
    ∃ p q, g.Opens start p ∧ ReflTransGen (g.Turn goal) p q ∧
      q.answer? goal = some (l.reaches start goal) := by
  obtain ⟨q, hrun, hanswer⟩ := exists_run_search hlisted ⟨[], l.targets start⟩
  exact ⟨_, q, ⟨rfl, hlisted start⟩, hrun, hanswer.trans (by rw [reaches_eq_search])⟩

/-- In every graph, with circles or without, and whatever the order in which edges are met, the
search comes to an end and tells whether a path of at least one edge leads to the goal. -/
theorem findsPaths (g : WaitGraph) (start goal : TxnId) : g.FindsPaths start goal := by
  have hlisted : ∀ l : Listing, g.ListedBy l →
      (l.reaches start goal = true ↔ TransGen g.Edge start goal) := by
    intro l hl
    obtain ⟨p, q, hopens, hrun, hanswer⟩ := exists_run_reaches hl start goal
    exact (hopens.explores.run hrun).answer_iff hanswer
  exact {
    ends := fun p hopens probes hchain => hopens.weight_eq ▸ length_le_weight hchain
    goes_on := fun p hnone => exists_turn hnone
    answer_iff := fun p q answer hopens hrun hanswer =>
      (hopens.explores.run hrun).answer_iff hanswer
    runs := fun l hl => exists_run_reaches hl start goal
    listed_iff := hlisted
    reaches_iff := hlisted g.listing g.listedBy_listing }

end PagedHeap.WaitGraph
