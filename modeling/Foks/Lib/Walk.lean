/-
  A walk over a graph that is stored elsewhere.

  Nodes wait in a queue. A node that was visited before is passed over; any other is visited, what
  the visit found is kept under it, and the nodes it leads to join the queue. If every node of a
  finite set can be visited and leads to nodes of the set only, the walk ends after at most as many
  visits as there are nodes, and what it keeps is what the visits found (`walk_ok`).
-/
import Foks.Lib.Outcome
import Mathlib.Data.List.Nodup
import Mathlib.Data.List.Perm.Subperm

namespace Foks.Lib

variable {κ β ε : Type} [DecidableEq κ]

/-- The walk with room for a number of visits; it fails with `missing` if another node is left. -/
def walk (visit : κ → Except ε (β × List κ)) (missing : ε) (room : Nat) (pending : List κ)
    (found : List (κ × β)) : Except ε (List (κ × β)) :=
  match pending.dropWhile (found.map (·.1)).contains with
  | [] => .ok found
  | key :: rest =>
    match room with
    | 0 => .error missing
    | room + 1 => do
      let visited ← visit key
      walk visit missing room (rest ++ visited.2) (found ++ [(key, visited.1)])

variable {visit : κ → Except ε (β × List κ)} {missing : ε} {nodes pending rest : List κ}
  {found : List (κ × β)} {key : κ}

/-- The first node that was not visited before. -/
theorem fresh_of_dropWhile (h : pending.dropWhile (found.map (·.1)).contains = key :: rest) :
    key ∉ found.map (·.1) ∧ key :: rest ⊆ pending := by
  refine ⟨?_, h ▸ List.dropWhile_subset _⟩
  have hnil : pending.dropWhile (found.map (·.1)).contains ≠ [] := by simp [h]
  have hhead := List.head_dropWhile_not _ hnil
  simpa [h] using hhead

theorem walk_ok {room : Nat}
    (hvisit : ∀ key ∈ nodes, ∃ visited, visit key = .ok visited ∧ visited.2 ⊆ nodes)
    (hpending : pending ⊆ nodes) (hnodup : (found.map (·.1)).Nodup)
    (hfound : found.map (·.1) ⊆ nodes) (hroom : nodes.length ≤ found.length + room) :
    ∃ all, walk visit missing room pending found = .ok all ∧
      ∀ x ∈ all, x ∈ found ∨ ∃ visited, visit x.1 = .ok visited ∧ visited.1 = x.2 := by
  induction room generalizing pending found with
  | zero =>
    unfold walk
    split
    · exact ⟨found, rfl, fun x hx => .inl hx⟩
    · -- another node would make more nodes than there are
      rename_i key rest hdrop
      obtain ⟨hnew, hsub⟩ := fresh_of_dropWhile hdrop
      have hlength := ((List.nodup_cons.mpr ⟨hnew, hnodup⟩).subperm
        (List.cons_subset.mpr ⟨hpending (hsub List.mem_cons_self), hfound⟩)).length_le
      rw [List.length_cons, List.length_map] at hlength
      omega
  | succ room ih =>
    unfold walk
    split
    · exact ⟨found, rfl, fun x hx => .inl hx⟩
    · rename_i key rest hdrop
      obtain ⟨hnew, hsub⟩ := fresh_of_dropWhile hdrop
      obtain ⟨hkey, hrest⟩ := List.cons_subset.mp (List.Subset.trans hsub hpending)
      obtain ⟨visited, hok, hnext⟩ := hvisit key hkey
      have hkeys : (found ++ [(key, visited.1)]).map (·.1) = found.map (·.1) ++ [key] := by simp
      obtain ⟨all, hall, hmem⟩ := @ih (rest ++ visited.2) (found ++ [(key, visited.1)])
        (List.append_subset.mpr ⟨hrest, hnext⟩)
        (by rw [hkeys]; exact List.nodup_append_comm.mp (List.nodup_cons.mpr ⟨hnew, hnodup⟩))
        (by rw [hkeys]; exact List.append_subset.mpr ⟨hfound, by simpa using hkey⟩)
        (by rw [List.length_append, List.length_singleton]; omega)
      refine ⟨all, ?_, fun x hx => ?_⟩
      · show (visit key >>= _) = _
        rw [hok]
        exact hall
      · rcases hmem x hx with hx | hx
        · rcases List.mem_append.mp hx with hx | hx
          · exact .inl hx
          · rw [List.mem_singleton.mp hx]
            exact .inr ⟨visited, hok, rfl⟩
        · exact .inr hx

end Foks.Lib
