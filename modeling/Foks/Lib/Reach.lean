/-
  Reachability in a finite graph, and graphs without a cycle.

  `closeUnder` is the loop of a recursive query with `UNION`: the rows found so far, then the new
  ones one step further, until there are none. With as many turns as there are targets it finds
  what can be reached and nothing else (`mem_closeUnder_iff`).

  `search` is a breadth-first search whose look-ups can fail; the rounds it needs are bounded
  (`search_isSome`), and if it does not find the goal then the goal cannot be reached
  (`search_eq_false`).

  A graph without a cycle keeps none when one vertex gets new edges, if no new edge leads to a
  vertex from which that vertex could be reached before (`Acyclic.replace`).
-/
import Mathlib.Data.List.Dedup
import Mathlib.Logic.Relation

namespace Foks.Lib

open Relation

section Closure

variable {α : Type} [DecidableEq α] (next : α → List α)

/-- The vertices one step from those found that are not found yet. -/
def fresh (found : List α) : List α := ((found.flatMap next).filter fun x => x ∉ found).dedup

def closeUnder : Nat → List α → List α
  | 0, found => found
  | turns + 1, found =>
    if fresh next found = [] then found else closeUnder turns (found ++ fresh next found)

variable {next} {found : List α}

theorem mem_fresh {x : α} : x ∈ fresh next found ↔ (∃ a ∈ found, x ∈ next a) ∧ x ∉ found := by
  simp [fresh]

theorem subset_closeUnder (turns : Nat) (found : List α) : found ⊆ closeUnder next turns found := by
  induction turns generalizing found with
  | zero => exact List.Subset.refl _
  | succ turns ih =>
    rw [closeUnder]
    split
    · exact List.Subset.refl _
    · exact List.Subset.trans (List.subset_append_left _ _) (ih _)

/-- What is found can be reached. -/
theorem reaches_of_mem_closeUnder {turns : Nat} {x : α} (hx : x ∈ closeUnder next turns found) :
    ∃ start ∈ found, ReflTransGen (fun a b => b ∈ next a) start x := by
  induction turns generalizing found with
  | zero => exact ⟨x, hx, .refl⟩
  | succ turns ih =>
    rw [closeUnder] at hx
    split at hx
    · exact ⟨x, hx, .refl⟩
    · obtain ⟨start, hstart, hreach⟩ := ih hx
      rcases List.mem_append.mp hstart with hold | hnew
      · exact ⟨start, hold, hreach⟩
      · obtain ⟨⟨before, hbefore, hedge⟩, -⟩ := mem_fresh.mp hnew
        exact ⟨before, hbefore, hreach.head hedge⟩

variable {targets : List α}

/-- A turn that finds something leaves fewer targets to find. -/
theorem length_unfound_lt (htargets : ∀ a b, b ∈ next a → b ∈ targets) (h : fresh next found ≠ []) :
    (targets.filter fun x => x ∉ found ++ fresh next found).length <
      (targets.filter fun x => x ∉ found).length := by
  obtain ⟨x, hx⟩ := List.exists_mem_of_ne_nil _ h
  obtain ⟨⟨a, -, hedge⟩, hnot⟩ := mem_fresh.mp hx
  have hsub : (targets.filter fun y => y ∉ found ++ fresh next found).Sublist
      (targets.filter fun y => y ∉ found) :=
    List.monotone_filter_right _ fun y hy => by simp at hy ⊢; exact hy.1
  refine Nat.lt_of_le_of_ne hsub.length_le fun heq => ?_
  have hmem : x ∈ targets.filter fun y => y ∉ found := by simp [htargets a x hedge, hnot]
  rw [← hsub.eq_of_length heq] at hmem
  simp [hx] at hmem

/-- With a turn for each target that is not found, the loop ends at a closed set. -/
theorem closeUnder_closed (htargets : ∀ a b, b ∈ next a → b ∈ targets) {turns : Nat}
    (hturns : (targets.filter fun x => x ∉ found).length ≤ turns) {a b : α}
    (ha : a ∈ closeUnder next turns found) (hedge : b ∈ next a) :
    b ∈ closeUnder next turns found := by
  induction turns generalizing found with
  | zero =>
    have hnone := List.length_eq_zero_iff.mp (Nat.le_zero.mp hturns)
    by_contra hb
    have hmem : b ∈ targets.filter fun x => x ∉ found := by
      simpa using And.intro (htargets a b hedge) (show b ∉ found from hb)
    rw [hnone] at hmem
    cases hmem
  | succ turns ih =>
    rw [closeUnder] at ha ⊢
    split
    · rename_i hfresh
      rw [if_pos hfresh] at ha
      by_contra hb
      have hmem : b ∈ fresh next found := mem_fresh.mpr ⟨⟨a, ha, hedge⟩, hb⟩
      rw [hfresh] at hmem
      cases hmem
    · rename_i hfresh
      rw [if_neg hfresh] at ha
      have hlt := length_unfound_lt htargets hfresh
      exact ih (by omega) ha

theorem mem_closeUnder_iff (htargets : ∀ a b, b ∈ next a → b ∈ targets) {turns : Nat}
    (hturns : targets.length ≤ turns) {start x : α} :
    x ∈ closeUnder next turns [start] ↔ ReflTransGen (fun a b => b ∈ next a) start x := by
  constructor
  · intro hx
    obtain ⟨s, hs, hreach⟩ := reaches_of_mem_closeUnder hx
    rwa [List.mem_singleton.mp hs] at hreach
  · intro hreach
    have hunfound := Nat.le_trans (List.length_filter_le (fun y => y ∉ [start]) targets) hturns
    induction hreach with
    | refl => exact subset_closeUnder turns [start] (List.mem_singleton_self start)
    | tail _ hedge ih => exact closeUnder_closed htargets hunfound ih hedge

end Closure

section Search

variable {α ε : Type} [DecidableEq α]

/-- Breadth-first search for a vertex. The edges of a vertex are looked up when it is visited, and
    the search ends when that fails. `none`: the rounds are used up. -/
def search (targets : α → Except ε (List α)) (goal : α) :
    Nat → List α → List α → Option (Except ε Bool)
  | _, [], _ => some (.ok false)
  | 0, _ :: _, _ => none
  | rounds + 1, x :: queue, visited =>
    if x = goal then some (.ok true)
    else if x ∈ visited then search targets goal rounds queue visited
    else
      match targets x with
      | .error error => some (.error error)
      | .ok next => search targets goal rounds (queue ++ next) (x :: visited)

variable {targets : α → Except ε (List α)} {goal : α}

/-- The edges that lead out of vertices not yet visited. -/
def unvisitedEdges (visited : List α) : List (α × Nat) → Nat
  | [] => 0
  | (x, degree) :: degrees =>
    (if x ∈ visited then 0 else degree) + unvisitedEdges visited degrees

theorem unvisitedEdges_cons_le (x : α) (visited : List α) (degrees : List (α × Nat)) :
    unvisitedEdges (x :: visited) degrees ≤ unvisitedEdges visited degrees := by
  induction degrees with
  | nil => exact Nat.le_refl 0
  | cons vertex degrees ih =>
    simp only [unvisitedEdges, List.mem_cons]
    split_ifs with hcons hvisited
    · omega
    · omega
    · exact absurd (.inr ‹_›) hcons
    · omega

theorem unvisitedEdges_visit {visited : List α} {degrees : List (α × Nat)} {x : α} {degree : Nat}
    (hmem : (x, degree) ∈ degrees) (hx : x ∉ visited) :
    degree + unvisitedEdges (x :: visited) degrees ≤ unvisitedEdges visited degrees := by
  induction degrees with
  | nil => cases hmem
  | cons vertex degrees ih =>
    have htail := unvisitedEdges_cons_le x visited degrees
    rcases List.mem_cons.mp hmem with rfl | hmem
    · simp only [unvisitedEdges, List.mem_cons_self, if_true, if_neg hx]
      omega
    · have hrest := ih hmem
      have hhead := unvisitedEdges_cons_le x visited [vertex]
      simp only [unvisitedEdges, Nat.add_zero] at hhead ⊢
      omega

/-- As many rounds are enough as there are vertices in the queue and edges out of vertices that are
    not visited. -/
theorem search_isSome {degrees : List (α × Nat)}
    (hdegrees : ∀ x next, targets x = .ok next → ∃ degree, (x, degree) ∈ degrees ∧
      next.length ≤ degree) {rounds : Nat} {queue visited : List α}
    (hrounds : queue.length + unvisitedEdges visited degrees ≤ rounds) :
    (search targets goal rounds queue visited).isSome = true := by
  fun_induction search targets goal rounds queue visited with
  | case1 => rfl
  | case2 => simp at hrounds
  | case3 => rfl
  | case4 rounds x queue visited _ _ ih =>
    rw [List.length_cons] at hrounds
    exact ih (by omega)
  | case5 => rfl
  | case6 rounds x queue visited _ hx next hnext ih =>
    obtain ⟨degree, hmem, hlength⟩ := hdegrees x next hnext
    have hvisit := unvisitedEdges_visit hmem hx
    refine ih ?_
    rw [List.length_cons] at hrounds
    rw [List.length_append]
    omega

/-- A search that ends without the goal has found a set of vertices that no edge leaves, all edges
    of it were looked up, and the goal is not in it. -/
theorem search_eq_false {rounds : Nat} {queue visited : List α}
    (h : search targets goal rounds queue visited = some (.ok false))
    (hvisited : ∀ x ∈ visited, x ≠ goal ∧ ∃ next, targets x = .ok next ∧
      ∀ y ∈ next, y ∈ visited ∨ y ∈ queue) :
    ∃ found, visited ⊆ found ∧ queue ⊆ found ∧ goal ∉ found ∧
      ∀ x ∈ found, ∃ next, targets x = .ok next ∧ next ⊆ found := by
  fun_induction search targets goal rounds queue visited with
  | case1 _ visited =>
    refine ⟨visited, List.Subset.refl _, List.nil_subset _,
      fun hgoal => (hvisited goal hgoal).1 rfl, fun x hx => ?_⟩
    obtain ⟨-, next, hnext, hclosed⟩ := hvisited x hx
    exact ⟨next, hnext, fun y hy => (hclosed y hy).resolve_right List.not_mem_nil⟩
  | case2 => cases h
  | case3 => cases h
  | case4 rounds x queue visited _ hx ih =>
    obtain ⟨found, hsub, hqueue, hrest⟩ := ih h fun v hv => by
      obtain ⟨hne, next, hnext, hclosed⟩ := hvisited v hv
      refine ⟨hne, next, hnext, fun y hy => ?_⟩
      rcases hclosed y hy with hin | hin
      · exact .inl hin
      · rcases List.mem_cons.mp hin with rfl | hin
        · exact .inl hx
        · exact .inr hin
    exact ⟨found, hsub, List.cons_subset.mpr ⟨hsub hx, hqueue⟩, hrest⟩
  | case5 => cases h
  | case6 rounds x queue visited hgoal hx next hnext ih =>
    obtain ⟨found, hsub, hqueue, hrest⟩ := ih h fun v hv => by
      rcases List.mem_cons.mp hv with rfl | hv
      · exact ⟨hgoal, next, hnext, fun y hy => .inr (List.mem_append_right _ hy)⟩
      · obtain ⟨hne, next', hnext', hclosed⟩ := hvisited v hv
        refine ⟨hne, next', hnext', fun y hy => ?_⟩
        rcases hclosed y hy with hin | hin
        · exact .inl (List.mem_cons_of_mem x hin)
        · rcases List.mem_cons.mp hin with rfl | hin
          · exact .inl List.mem_cons_self
          · exact .inr (List.mem_append_left _ hin)
    obtain ⟨hx, hsub⟩ := List.cons_subset.mp hsub
    exact ⟨found, hsub, List.cons_subset.mpr ⟨hx, fun y hy =>
      hqueue (List.mem_append_left _ hy)⟩, hrest⟩

end Search

section Cycles

variable {α : Type}

def Acyclic (edge : α → α → Prop) : Prop := ∀ x, ¬ TransGen edge x x

variable {old new : α → α → Prop}

theorem Acyclic.mono (hacyclic : Acyclic old) (hsub : ∀ a b, new a b → old a b) : Acyclic new :=
  fun x hcycle => hacyclic x (TransGen.mono hsub x x hcycle)

/-- A walk of the new graph to the changed vertex is a walk of the old graph: it uses no new edge
    before it gets there. -/
theorem reaches_of_replaced {vertex : α} (hsame : ∀ a b, a ≠ vertex → new a b → old a b) {x : α}
    (h : ReflTransGen new x vertex) : ReflTransGen old x vertex := by
  induction h using ReflTransGen.head_induction_on with
  | refl => exact .refl
  | @head a b hedge _ ih =>
    by_cases ha : a = vertex
    · rw [ha]
    · exact ih.head (hsame a b ha hedge)

/-- A walk of the new graph is one of the old graph or passes the changed vertex. -/
theorem walk_or_passes {vertex : α} (hsame : ∀ a b, a ≠ vertex → new a b → old a b) {x y : α}
    (h : TransGen new x y) :
    TransGen old x y ∨ ReflTransGen new x vertex ∧ TransGen new vertex y := by
  induction h with
  | single hedge =>
    by_cases hx : x = vertex
    · exact .inr ⟨hx ▸ .refl, hx ▸ .single hedge⟩
    · exact .inl (.single (hsame _ _ hx hedge))
  | @tail b c hwalk hedge ih =>
    rcases ih with hold | ⟨hto, hfrom⟩
    · by_cases hb : b = vertex
      · exact .inr ⟨hb ▸ hwalk.to_reflTransGen, hb ▸ .single hedge⟩
      · exact .inl (hold.tail (hsame _ _ hb hedge))
    · exact .inr ⟨hto, hfrom.tail hedge⟩

theorem Acyclic.replace {vertex : α} (hacyclic : Acyclic old)
    (hsame : ∀ a b, a ≠ vertex → new a b → old a b)
    (hnew : ∀ b, new vertex b → ¬ ReflTransGen old b vertex) : Acyclic new := by
  have hvertex : ¬ TransGen new vertex vertex := by
    intro hcycle
    obtain ⟨b, hedge, hback⟩ := TransGen.head'_iff.mp hcycle
    exact hnew b hedge (reaches_of_replaced hsame hback)
  intro x hcycle
  rcases walk_or_passes hsame hcycle with hold | ⟨hto, hfrom⟩
  · exact hacyclic x hold
  · exact hvertex (hfrom.trans_left hto)

/-- In a graph where no vertex has two predecessors and the root has none, what lies on the way to
    a vertex lies on its path from the root. -/
theorem reaches_on_path {edge path : α → α → Prop} {root : α}
    (hpath : ∀ a b, path a b → edge a b) (hunique : ∀ a a' b, edge a b → edge a' b → a = a')
    (hroot : ∀ a, ¬ edge a root) {x y : α} (hy : ReflTransGen path root y)
    (hx : ReflTransGen edge x y) : ReflTransGen path x y := by
  induction hy with
  | refl =>
    rcases hx.cases_tail with rfl | ⟨a, -, hedge⟩
    · exact .refl
    · exact absurd hedge (hroot a)
  | @tail b c _ hstep ih =>
    rcases hx.cases_tail with rfl | ⟨a, hbefore, hedge⟩
    · exact .refl
    · obtain rfl := hunique a b c hedge (hpath b c hstep)
      exact (ih hbefore).tail hstep

end Cycles

end Foks.Lib
