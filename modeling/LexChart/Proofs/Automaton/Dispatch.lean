import LexChart.Automaton.Dispatch
import LexChart.Proofs.Automaton.Subset
set_option autoImplicit false

/-!
# Dispatch is by the first label

A dispatch table answers with the position of the first label that holds the character, whether the
character has a slot of its own or not.  The invariant of a table under construction is just that,
for the labels added so far.
-/

namespace LexChart

namespace DispatchTable

theorem size_fill (position : Nat) (direct : Array (Option Nat)) (slot count : Nat) :
    (fill position direct slot count).size = direct.size := by
  induction count generalizing direct slot with
  | zero => rfl
  | succ count ih => rw [fill, ih, Array.size_modify]

/-- Filling gives the free slots of a range to the transition and changes nothing else. -/
theorem getElem?_fill (position : Nat) (direct : Array (Option Nat)) (slot count k : Nat) :
    (fill position direct slot count)[k]? =
      if slot ≤ k ∧ k < slot + count then direct[k]?.map fun owner => some (owner.getD position)
      else direct[k]? := by
  induction count generalizing direct slot with
  | zero =>
    rw [fill, if_neg (by omega)]
  | succ count ih =>
    rw [fill, ih, Array.getElem?_modify]
    by_cases hslot : slot = k
    · rw [if_neg (by omega), if_pos hslot, if_pos (by omega)]
    · simp only [if_neg hslot]
      by_cases hk : slot + 1 ≤ k ∧ k < slot + 1 + count
      · rw [if_pos hk, if_pos (by omega)]
      · rw [if_neg hk, if_neg (by omega)]

theorem mem_iff_toNat {c : Char} {i : Interval} :
    c ∈ i ↔ i.lo.toNat ≤ c.toNat ∧ c.toNat ≤ i.hi.toNat := Iff.rfl

theorem mem_ofChars? {lo hi c : Char} :
    (∃ i, Interval.ofChars? lo hi = some i ∧ c ∈ i) ↔ lo ≤ c ∧ c ≤ hi := by
  constructor
  · rintro ⟨i, hi, hc⟩
    unfold Interval.ofChars? at hi
    split at hi
    · obtain rfl := Option.some.inj hi
      exact hc
    · cases hi
  · intro hc
    exact ⟨⟨lo, hi, Char.le_trans hc.1 hc.2⟩, dif_pos (Char.le_trans hc.1 hc.2), hc⟩

/-- The part of an interval without slots holds its characters without a slot. -/
theorem mem_widePart {c : Char} (hc : directSize ≤ c.toNat) (i : Interval) :
    (∃ wide, widePart i = some wide ∧ c ∈ wide) ↔ c ∈ i := by
  have hfirst : firstWide ≤ c := hc
  unfold widePart
  rw [mem_ofChars?]
  split
  · rename_i hlo
    exact ⟨fun h => ⟨Char.le_trans hlo h.1, h.2⟩, fun h => ⟨hfirst, h.2⟩⟩
  · exact Iff.rfl

/-- The table answers with the first of the labels that hold a character. -/
structure Finds (table : DispatchTable) (labels : List Interval) : Prop where
  size_direct : table.direct.size = directSize
  direct : ∀ c : Char, c.toNat < directSize →
    table.direct[c.toNat]? = some (labels.findIdx? fun i => c ∈ i)
  wide : ∀ c : Char, directSize ≤ c.toNat →
    (table.wide.find? fun entry => c ∈ entry.1).map Prod.snd = labels.findIdx? fun i => c ∈ i

theorem finds_empty : Finds empty [] := by
  refine ⟨Array.size_replicate, fun c hc => ?_, fun c _ => rfl⟩
  unfold empty
  rw [Array.getElem?_replicate, if_pos hc]
  rfl

theorem findIdx?_concat (labels : List Interval) (label : Interval) (c : Char) :
    (labels ++ [label]).findIdx? (fun i => c ∈ i) =
      if c ∈ label then some ((labels.findIdx? fun i => c ∈ i).getD labels.length)
      else labels.findIdx? fun i => c ∈ i := by
  rw [List.findIdx?_append, List.findIdx?_singleton]
  by_cases hc : c ∈ label
  · cases labels.findIdx? (fun i => c ∈ i) <;> simp [hc]
  · cases labels.findIdx? (fun i => c ∈ i) <;> simp [hc]

/-- Adding a transition behind the others keeps what the table finds. -/
theorem Finds.add {table : DispatchTable} {labels : List Interval} (h : Finds table labels)
    (label : Interval) : Finds (table.add label labels.length) (labels ++ [label]) := by
  refine ⟨?_, fun c hc => ?_, fun c hc => ?_⟩
  · unfold DispatchTable.add
    rw [size_fill]
    exact h.size_direct
  · unfold DispatchTable.add
    rw [getElem?_fill, h.direct c hc, findIdx?_concat]
    have hslots : label.lo.toNat ≤ c.toNat ∧ c.toNat < label.lo.toNat +
        (min (label.hi.toNat + 1) directSize - label.lo.toNat) ↔ c ∈ label := by
      rw [mem_iff_toNat]
      omega
    by_cases hci : c ∈ label
    · rw [if_pos (hslots.2 hci), if_pos hci]
      rfl
    · rw [if_neg (mt hslots.1 hci), if_neg hci]
  · have hwide := h.wide c hc
    have hpart := mem_widePart hc label
    unfold DispatchTable.add
    rw [findIdx?_concat, List.find?_append, ← hwide]
    cases table.wide.find? (fun entry => c ∈ entry.1) with
    | some entry => simp
    | none =>
      cases hlabel : widePart label with
      | none =>
        rw [hlabel] at hpart
        have hci : c ∉ label := fun hci => by simpa using hpart.2 hci
        simp [hci]
      | some part =>
        rw [hlabel] at hpart
        have hci : c ∈ part ↔ c ∈ label := by simpa using hpart
        by_cases hcl : c ∈ label
        · simp [hci.2 hcl, hcl]
        · simp [mt hci.1 hcl, hcl]

theorem ofLabels_concat (labels : List Interval) (label : Interval) :
    ofLabels (labels ++ [label]) = (ofLabels labels).add label labels.length := by
  unfold ofLabels
  rw [List.zipIdx_append, List.foldl_append]
  simp

theorem finds_ofLabels (labels : List Interval) : Finds (ofLabels labels) labels := by
  induction labels using List.reverseRecOn with
  | nil => exact finds_empty
  | append_singleton labels label ih =>
    rw [ofLabels_concat]
    exact ih.add label

/-- A character is dispatched by the first label that holds it. -/
theorem lookup_ofLabels (labels : List Interval) (c : Char) :
    lookup (ofLabels labels) c = labels.findIdx? fun i => c ∈ i := by
  have h := finds_ofLabels labels
  unfold lookup
  split
  · rename_i hc
    rw [Array.getD_eq_getD_getElem?, h.direct c hc]
    rfl
  · rename_i hc
    exact h.wide c (Nat.le_of_not_lt hc)

/-- The table of a state answers with its first transition that reads the character. -/
theorem lookup_ofState (s : DfaState Interval) (c : Char) :
    lookup (ofState s) c = s.transitions.findIdx? fun t => c ∈ t.label := by
  unfold ofState
  rw [lookup_ofLabels, List.findIdx?_map]
  rfl

end DispatchTable

namespace Dispatch

/-- A step takes the first transition of the state that reads the character. -/
theorem step_ofDfa {dfa : Dfa Interval} {id : Nat} {s : DfaState Interval}
    (h : dfa.state id = .ok s) (c : Char) :
    step (ofDfa dfa) dfa id c = .ok (s.transitions.find? fun t => c ∈ t.label) := by
  have htable : (ofDfa dfa)[id]? = some (DispatchTable.ofState s) := by
    unfold ofDfa
    rw [Array.getElem?_map, Dfa.state_eq_ok_iff.1 h]
    rfl
  unfold step
  rw [htable]
  dsimp only
  rw [DispatchTable.lookup_ofState, List.find?_eq_bind_findIdx?_getElem?]
  cases s.transitions.findIdx? (fun t => c ∈ t.label) with
  | none => rfl
  | some position =>
    dsimp only
    rw [h]
    rfl

end Dispatch

end LexChart
